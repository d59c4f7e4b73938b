import DesignHierarchy.Symbol.Basic

/-! Declarations as they are handed over for loading: trees without ids. Loading
freezes them, numbering a file's declarations in pre-order from zero. -/
namespace DesignHierarchy

structure Decl where
  name : String
  kind : Kind
  typeRef : Option String := none
  nameSpan : Span := {}
  fullSpan : Span := {}
  children : List Decl := []

namespace Decl

mutual

def decEq : (a b : Decl) → Decidable (a = b)
  | ⟨n, k, t, s, f, cs⟩, ⟨n', k', t', s', f', cs'⟩ =>
    if h : n = n' ∧ k = k' ∧ t = t' ∧ s = s' ∧ f = f' then
      match decEqAll cs cs' with
      | .isTrue hc => .isTrue (by simp [h, hc])
      | .isFalse hc => .isFalse (by simp [hc])
    else .isFalse fun e => h (by
      simp only [mk.injEq] at e
      exact ⟨e.1, e.2.1, e.2.2.1, e.2.2.2.1, e.2.2.2.2.1⟩)

def decEqAll : (as bs : List Decl) → Decidable (as = bs)
  | [], [] => .isTrue rfl
  | [], _ :: _ => .isFalse (by simp)
  | _ :: _, [] => .isFalse (by simp)
  | a :: as, b :: bs =>
    match decEq a b, decEqAll as bs with
    | .isTrue ha, .isTrue has => .isTrue (by rw [ha, has])
    | .isFalse ha, _ => .isFalse (by simp [ha])
    | _, .isFalse has => .isFalse (by simp [has])

end

instance : DecidableEq Decl := decEq

mutual

def count : Decl → Nat
  | ⟨_, _, _, _, _, children⟩ => countAll children + 1

def countAll : List Decl → Nat
  | [] => 0
  | decl :: rest => decl.count + countAll rest

end

mutual

/-- Gives the tree the numbers from `next` on; the number after its last one comes back with it. -/
def freeze (file : FileId) : Decl → Nat → Symbol × Nat
  | ⟨name, kind, typeRef, nameSpan, fullSpan, children⟩, next =>
    let (symbols, after) := freezeAll file children (next + 1)
    (⟨⟨file, next⟩, name, kind, typeRef, ⟨file, nameSpan, fullSpan⟩, symbols⟩, after)

def freezeAll (file : FileId) : List Decl → Nat → List Symbol × Nat
  | [], next => ([], next)
  | decl :: rest, next =>
    let (symbol, middle) := freeze file decl next
    let (symbols, after) := freezeAll file rest middle
    (symbol :: symbols, after)

end

mutual

/-- Numbers a tree with a counter of 32 bits; refused where the counter would wrap around. -/
def freeze? (file : FileId) : Decl → UInt32 → Option (Symbol × UInt32)
  | ⟨name, kind, typeRef, nameSpan, fullSpan, children⟩, next =>
    if next.toNat + 1 < UInt32.size then do
      let (symbols, after) ← freezeAll? file children (next + 1)
      return (⟨⟨file, next.toNat⟩, name, kind, typeRef, ⟨file, nameSpan, fullSpan⟩, symbols⟩, after)
    else none

def freezeAll? (file : FileId) : List Decl → UInt32 → Option (List Symbol × UInt32)
  | [], next => some ([], next)
  | decl :: rest, next => do
    let (symbol, middle) ← freeze? file decl next
    let (symbols, after) ← freezeAll? file rest middle
    return (symbol :: symbols, after)

end

end Decl

mutual

/-- The declaration a symbol was loaded from. -/
def Symbol.decl : Symbol → Decl
  | ⟨_, name, kind, typeRef, location, children⟩ =>
    ⟨name, kind, typeRef, location.nameSpan, location.fullSpan, Symbol.declAll children⟩

def Symbol.declAll : List Symbol → List Decl
  | [] => []
  | symbol :: rest => symbol.decl :: Symbol.declAll rest

end

end DesignHierarchy
