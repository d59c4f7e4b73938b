/-! Values under words. Finding a word takes a step for each of its letters and
for each letter that stands beside them, however many words there are. -/
namespace DesignHierarchy

/-- The words from one point on: those that go on with `mark`, then the others. The empty word
is never among them. -/
inductive Trie (ν : Type) where
  | empty
  | branch (mark : Char) (value : Option ν) (below beside : Trie ν)

namespace Trie

variable {ν : Type}

def find? : Trie ν → List Char → Option ν
  | .empty, _ => none
  | .branch .., [] => none
  | .branch mark value below beside, c :: cs =>
    if mark = c then
      match cs with
      | [] => value
      | d :: ds => below.find? (d :: ds)
    else beside.find? (c :: cs)

def single (value : ν) : List Char → Trie ν
  | [] => .empty
  | [c] => .branch c (some value) .empty .empty
  | c :: d :: ds => .branch c none (single value (d :: ds)) .empty

def insert (value : ν) : Trie ν → List Char → Trie ν
  | .empty, word => single value word
  | .branch mark held below beside, [] => .branch mark held below beside
  | .branch mark held below beside, c :: cs =>
    if mark = c then
      match cs with
      | [] => .branch mark (some value) below beside
      | d :: ds => .branch mark held (below.insert value (d :: ds)) beside
    else .branch mark held below (beside.insert value (c :: cs))

@[simp] theorem find?_nil (trie : Trie ν) : trie.find? [] = none := by
  cases trie <;> rfl

theorem find?_single (value : ν) (c : Char) (cs other : List Char) :
    (single value (c :: cs)).find? other = if c :: cs = other then some value else none := by
  induction cs generalizing c other with
  | nil =>
    rcases other with _ | ⟨x, _ | ⟨y, ys⟩⟩ <;> simp [single, find?]
  | cons d ds ih =>
    rcases other with _ | ⟨x, _ | ⟨y, ys⟩⟩
    · simp [single]
    · simp [single, find?]
    · by_cases hx : c = x
      · simp [single, find?, hx, ih]
      · simp [single, find?, hx]

/-- Only the word that is put in changes its value. -/
theorem find?_insert (value : ν) (trie : Trie ν) (c : Char) (cs other : List Char) :
    (trie.insert value (c :: cs)).find? other =
      if c :: cs = other then some value else trie.find? other := by
  induction trie generalizing c cs other with
  | empty => simp [insert, find?_single, find?]
  | branch mark held below beside ihBelow ihBeside =>
    rcases other with _ | ⟨x, xs⟩
    · simp
    · by_cases hc : mark = c
      · subst hc
        rcases cs with _ | ⟨d, ds⟩ <;> rcases xs with _ | ⟨y, ys⟩ <;>
          by_cases hx : mark = x <;> simp [insert, find?, hx, ihBelow]
      · by_cases hx : mark = x
        · subst hx
          have : c ≠ mark := Ne.symm hc
          simp [insert, find?, hc, this]
        · simp [insert, find?, hc, hx, ihBeside]

end Trie

end DesignHierarchy
