import Mathlib.Data.List.Range

/-! Blocks of consecutive numbers: lists that grow at the end by the next number
and shrink at the front. -/
namespace RedkeyOperator.Data

/-- The first number of a list, 1 for the empty list. -/
def low (l : List Nat) : Nat := l.head?.getD 1

/-- The last number of a list, 0 for the empty list. -/
def top (l : List Nat) : Nat := l.getLast?.getD 0

/-- Consecutive numbers from 1 or above. -/
structure Block (l : List Nat) : Prop where
  eq : l = List.range' (low l) l.length
  pos : 1 ≤ low l

theorem Block.nil : Block [] := ⟨rfl, le_rfl⟩

theorem Block.top_eq {l : List Nat} (h : Block l) : top l + 1 = low l + l.length := by
  have hp := h.pos
  cases l with
  | nil => rfl
  | cons a t =>
    have hl := congrArg List.getLast? h.eq
    rw [List.getLast?_range', if_neg (by simp)] at hl
    rw [top, hl, Option.getD_some, List.length_cons]
    omega

theorem Block.mem {l : List Nat} (h : Block l) {a : Nat} : a ∈ l ↔ low l ≤ a ∧ a ≤ top l := by
  have ht := h.top_eq
  rw [show a ∈ l ↔ a ∈ List.range' (low l) l.length by rw [← h.eq], List.mem_range'_1]
  omega

theorem Block.append {l : List Nat} (h : Block l) :
    Block (l ++ [top l + 1]) ∧ low (l ++ [top l + 1]) = low l ∧
      top (l ++ [top l + 1]) = top l + 1 := by
  have hlow : low (l ++ [top l + 1]) = low l := by
    cases l with
    | nil => rfl
    | cons a t => rfl
  refine ⟨⟨?_, hlow ▸ h.pos⟩, hlow, by simp [top]⟩
  rw [hlow, List.length_append, List.length_singleton, List.range'_1_concat, ← h.eq, h.top_eq]

theorem Block.tail {a : Nat} {t : List Nat} (h : Block (a :: t)) (ht : t ≠ []) :
    Block t ∧ low t = a + 1 ∧ top t = top (a :: t) := by
  have heq : t = List.range' (a + 1) t.length := by
    have := h.eq
    simp only [low, List.head?_cons, Option.getD_some, List.length_cons, List.range'_succ,
      List.cons.injEq, true_and] at this
    exact this
  have hlow : low t = a + 1 := by
    cases t with
    | nil => exact absurd rfl ht
    | cons b t =>
      simp only [List.length_cons, List.range'_succ, List.cons.injEq] at heq
      simp [low, heq.1]
  refine ⟨⟨hlow ▸ heq, by omega⟩, hlow, ?_⟩
  cases t with
  | nil => exact absurd rfl ht
  | cons b t => simp [top]

theorem Block.top_mem {l : List Nat} (h : Block l) (ht : 1 ≤ top l) : top l ∈ l := by
  have hne : l ≠ [] := by rintro rfl; simp [top] at ht
  have := List.length_pos_of_ne_nil hne
  have := h.top_eq
  exact h.mem.mpr ⟨by omega, le_rfl⟩

theorem Block.succ {l₁ l₂ : List Nat} {a b : Nat} (h : Block (l₁ ++ a :: b :: l₂)) : b = a + 1 := by
  have ha : (l₁ ++ a :: b :: l₂)[l₁.length]? = some a := by simp
  have hb : (l₁ ++ a :: b :: l₂)[l₁.length + 1]? = some b := by
    rw [List.getElem?_append_right (by omega)]; simp
  have heq := h.eq
  set l := l₁ ++ a :: b :: l₂
  rw [heq, List.getElem?_range' (by simp [l])] at ha
  rw [heq, List.getElem?_range' (by simp [l])] at hb
  simp only [Option.some.injEq] at ha hb
  omega

theorem Block.pairwise {l : List Nat} (h : Block l) : l.Pairwise (· < ·) := by
  rw [h.eq]
  exact List.pairwise_lt_range'

end RedkeyOperator.Data
