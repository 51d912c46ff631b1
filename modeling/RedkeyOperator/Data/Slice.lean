import Mathlib.Data.List.Basic

/-! # Slices of a shared memory

Arrays are allocated and never freed; a slice is a window on one of them.
`append` writes into the array behind a slice while there is room, and moves to
a new array when there is none. How much room a new array has is up to the
runtime. `Owns` is the rule for a loop that builds its result in arrays of its
own: what was in memory before stays. -/
namespace RedkeyOperator.Data

structure Memory (α : Type) where
  arrays : List (List α)

structure Slice where
  array : Nat
  offset : Nat
  len : Nat
  cap : Nat

def Slice.nil : Slice := ⟨0, 0, 0, 0⟩

namespace Memory
variable {α : Type}

def cells (m : Memory α) (a : Nat) : List α := m.arrays[a]?.getD []

def read (m : Memory α) (s : Slice) : List α := ((m.cells s.array).drop s.offset).take s.len

/-- `s[i] = x`. -/
def write (m : Memory α) (s : Slice) (i : Nat) (x : α) : Memory α :=
  ⟨m.arrays.modify s.array fun xs => xs.set (s.offset + i) x⟩

variable [Inhabited α]

def alloc (m : Memory α) (room : Nat) (xs : List α) : Memory α × Slice :=
  (⟨m.arrays ++ [xs ++ List.replicate room default]⟩,
    ⟨m.arrays.length, 0, xs.length, xs.length + room⟩)

/-- `append(s, x)`. -/
def append (m : Memory α) (room : Nat) (s : Slice) (x : α) : Memory α × Slice :=
  if s.len < s.cap then (m.write s s.len x, { s with len := s.len + 1 })
  else m.alloc room (m.read s ++ [x])

/-- `append([]T(nil), s...)`. -/
def clone (m : Memory α) (room : Nat) (s : Slice) : Memory α × Slice :=
  if s.len = 0 then (m, .nil) else m.alloc room (m.read s)

omit [Inhabited α]
variable {m m₀ : Memory α} {s : Slice}

structure Valid (m : Memory α) (s : Slice) : Prop where
  len_le : s.len ≤ s.cap
  fits : s.cap = 0 ∨ s.offset + s.cap ≤ (m.cells s.array).length

theorem Valid.length_read (h : m.Valid s) : (m.read s).length = s.len := by
  have hlen := h.len_le
  simp only [read, List.length_take, List.length_drop]
  rcases h.fits with hc | hf <;> omega

/-- The arrays of `m₀` are as they were, and `s` is not on one of them. -/
structure Owns (m₀ m : Memory α) (s : Slice) : Prop where
  kept : ∀ a < m₀.arrays.length, m.arrays[a]? = m₀.arrays[a]?
  grown : m₀.arrays.length ≤ m.arrays.length
  valid : m.Valid s
  apart : s.cap = 0 ∨ m₀.arrays.length ≤ s.array

theorem Owns.read_kept (h : Owns m₀ m s) {t : Slice} (ht : m₀.Valid t) : m.read t = m₀.read t := by
  by_cases ha : t.array < m₀.arrays.length
  · simp only [read, cells, h.kept _ ha]
  · have hlen : t.len = 0 := by
      have hle := ht.len_le
      have hcells : m₀.cells t.array = [] := by
        simp [cells, List.getElem?_eq_none (Nat.le_of_not_lt ha)]
      rcases ht.fits with hc | hf
      · omega
      · rw [hcells, List.length_nil] at hf
        omega
    simp [read, hlen]

theorem cells_write (m : Memory α) (s : Slice) (i : Nat) (x : α) :
    (m.write s i x).cells s.array = (m.cells s.array).set (s.offset + i) x := by
  simp only [write, cells, List.getElem?_modify]
  cases m.arrays[s.array]? <;> simp

theorem write_valid (h : m.Valid s) (i : Nat) (x : α) : (m.write s i x).Valid s := by
  refine ⟨h.len_le, ?_⟩
  rw [cells_write, List.length_set]
  exact h.fits

/-- A write to a slice of one's own. -/
theorem Owns.write (h : Owns m₀ m s) {i : Nat} (hi : i < s.cap) (x : α) :
    Owns m₀ (m.write s i x) s := by
  have hs : m₀.arrays.length ≤ s.array := by
    rcases h.apart with hc | ha
    · omega
    · exact ha
  refine ⟨fun a ha => ?_, ?_, write_valid h.valid i x, h.apart⟩
  · have hne : s.array ≠ a := by omega
    rw [← h.kept a ha, Memory.write, List.getElem?_modify]
    simp [hne]
  · simpa [Memory.write] using h.grown

theorem read_write (m : Memory α) (s : Slice) (i : Nat) (x : α) :
    (m.write s i x).read s = (m.read s).set i x := by
  simp only [read, cells_write, List.drop_set]
  rw [if_neg (by omega), Nat.add_sub_cancel_left, List.take_set]

variable [Inhabited α]

theorem Owns.alloc (hk : ∀ a < m₀.arrays.length, m.arrays[a]? = m₀.arrays[a]?)
    (hg : m₀.arrays.length ≤ m.arrays.length) (room : Nat) (xs : List α) :
    Owns m₀ (m.alloc room xs).1 (m.alloc room xs).2 := by
  refine ⟨fun a ha => ?_, ?_, ⟨?_, .inr ?_⟩, .inr hg⟩
  · rw [← hk a ha]
    exact List.getElem?_append_left (by omega)
  · simp [Memory.alloc]
    omega
  · simp [Memory.alloc]
  · simp [Memory.alloc, cells]

theorem read_alloc (m : Memory α) (room : Nat) (xs : List α) :
    (m.alloc room xs).1.read (m.alloc room xs).2 = xs := by
  simp [Memory.alloc, read, cells]

theorem Owns.append (h : Owns m₀ m s) (room : Nat) (x : α) :
    Owns m₀ (m.append room s x).1 (m.append room s x).2 := by
  unfold Memory.append
  split
  · rename_i hlt
    have hw := h.write hlt x
    exact ⟨hw.kept, hw.grown, ⟨hlt, hw.valid.fits⟩, hw.apart⟩
  · exact Owns.alloc h.kept h.grown room _

theorem read_append (h : m.Valid s) (room : Nat) (x : α) :
    (m.append room s x).1.read (m.append room s x).2 = m.read s ++ [x] := by
  unfold Memory.append
  split
  · rename_i hlt
    have hfit : s.len < ((m.cells s.array).drop s.offset).length := by
      rw [List.length_drop]
      rcases h.fits with hc | hf <;> omega
    have hlen : (((m.cells s.array).drop s.offset).take s.len).length = s.len := by
      rw [List.length_take]
      omega
    simp only [read, cells_write, List.drop_set]
    rw [if_neg (by omega), Nat.add_sub_cancel_left, List.take_set,
      List.take_succ_eq_append_getElem hfit, List.set_append_right _ _ (by omega), hlen,
      Nat.sub_self, List.set_cons_zero]
  · exact read_alloc m room _

theorem Owns.clone (m : Memory α) (room : Nat) (s : Slice) :
    Owns m (m.clone room s).1 (m.clone room s).2 := by
  unfold Memory.clone
  split
  · exact ⟨fun _ _ => rfl, Nat.le_refl _, ⟨Nat.le_refl _, .inl rfl⟩, .inl rfl⟩
  · exact Owns.alloc (fun _ _ => rfl) (Nat.le_refl _) room _

theorem read_clone (m : Memory α) (room : Nat) (s : Slice) :
    (m.clone room s).1.read (m.clone room s).2 = m.read s := by
  unfold Memory.clone
  split
  · rename_i hlen
    simp [read, hlen, Slice.nil]
  · exact read_alloc m room _

end Memory
end RedkeyOperator.Data
