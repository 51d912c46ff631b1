import Mathlib.Data.List.Induction
import RedkeyOperator.Controller.Robin
import RedkeyOperator.Data.LastWins
import RedkeyOperator.Data.Slice

/-! # Merging environment variables

`mergeEnvVars` keeps the index of the last entry of each name while its output
grows. The index is right at every step, so the loop puts the overrides one
after the other. In memory it works on a copy. -/
namespace RedkeyOperator.Controller
open RedkeyOperator.Api RedkeyOperator.Data LastWins

/-! ## The index -/

/-- The index maps each name to the place of its last entry. -/
def Indexed (s : List EnvVar × List (String × Nat)) : Prop :=
  ∀ n, s.2.lookup n = lastIndex EnvVar.name n s.1

theorem indexed_concat {s : List EnvVar × List (String × Nat)} (h : Indexed s) (e : EnvVar) :
    Indexed (s.1 ++ [e], (e.name, s.1.length) :: s.2) := by
  intro n
  rw [lastIndex_concat, List.lookup_cons]
  by_cases hn : n = e.name
  · simp [hn]
  · simpa [beq_eq_false_iff_ne.mpr hn, Ne.symm hn] using h n

theorem indexed_indexByName (base : List EnvVar) : Indexed (base, indexByName base) := by
  induction base using List.reverseRecOn with
  | nil => intro n; rfl
  | append_singleton base e ih =>
    have hstep : indexByName (base ++ [e]) = (e.name, base.length) :: indexByName base := by
      simp [indexByName, List.zipIdx_append, List.foldl_append]
    rw [hstep]
    exact indexed_concat ih e

theorem mergeEnvVar_put {s : List EnvVar × List (String × Nat)} (h : Indexed s) (e : EnvVar) :
    (mergeEnvVar s e).1 = put EnvVar.name e s.1 ∧ Indexed (mergeEnvVar s e) := by
  unfold mergeEnvVar
  cases hi : s.2.lookup e.name with
  | none =>
    have hnone := hi
    rw [h] at hnone
    exact ⟨(put_of_lastIndex_none hnone).symm, indexed_concat h e⟩
  | some i =>
    have hsome := hi
    rw [h] at hsome
    have hput := put_of_lastIndex hsome
    refine ⟨hput.symm, fun n => (h n).trans ?_⟩
    have hmem : e.name ∈ s.1.map EnvVar.name := by
      by_contra hn
      rw [lastIndex_eq_none.mpr hn] at hsome
      cases hsome
    refine lastIndex_congr ?_ n
    show s.1.map EnvVar.name = (s.1.set i e).map EnvVar.name
    rw [← hput, keys_put, if_pos hmem]

theorem mergeEnvVars_loop {s : List EnvVar × List (String × Nat)} (h : Indexed s)
    (overrides : List EnvVar) :
    (overrides.foldl mergeEnvVar s).1 = merge EnvVar.name s.1 overrides ∧
      Indexed (overrides.foldl mergeEnvVar s) := by
  induction overrides generalizing s with
  | nil => exact ⟨rfl, h⟩
  | cons e overrides ih =>
    obtain ⟨hput, hidx⟩ := mergeEnvVar_put h e
    obtain ⟨hmerge, hidx'⟩ := ih hidx
    refine ⟨?_, hidx'⟩
    rw [List.foldl_cons, hmerge, hput]
    rfl

theorem mergeEnvVars_eq (base overrides : List EnvVar) :
    mergeEnvVars base overrides = merge EnvVar.name base overrides :=
  (mergeEnvVars_loop (indexed_indexByName base) overrides).1

/-! ## In memory -/

/-- The zero value that unused cells hold. -/
instance : Inhabited EnvVar := ⟨{ name := "" }⟩

/-- `merged` and `indexByName` while the loop runs. -/
structure Merging where
  memory : Memory EnvVar
  merged : Slice
  index : List (String × Nat)

/-- One turn of the loop; the override is read when its turn comes. -/
def mergeEnvVarAt (room : Nat → Nat) (overrides : Slice) (s : Merging) (i : Nat) : Merging :=
  match (s.memory.read overrides)[i]? with
  | none => s
  | some e => match s.index.lookup e.name with
    | some index => { s with memory := s.memory.write s.merged index e }
    | none =>
      let grown := s.memory.append (room s.merged.len) s.merged e
      { memory := grown.1, merged := grown.2, index := (e.name, s.merged.len) :: s.index }

/-- `mergeEnvVars` on slices; `room` is the runtime's choice for new arrays. -/
def mergeEnvVarsAt (room : Nat → Nat) (memory : Memory EnvVar) (base overrides : Slice) :
    Memory EnvVar × Slice :=
  let copy := memory.clone (room base.len) base
  let s := (List.range overrides.len).foldl (mergeEnvVarAt room overrides)
    { memory := copy.1, merged := copy.2, index := indexByName (copy.1.read copy.2) }
  (s.memory, s.merged)

/-- The loop holds the list `p.1` and the index `p.2`, in arrays of its own. -/
structure Holds (memory : Memory EnvVar) (s : Merging) (p : List EnvVar × List (String × Nat)) :
    Prop where
  owns : Memory.Owns memory s.memory s.merged
  read : s.memory.read s.merged = p.1
  index : s.index = p.2

theorem Holds.turn {room : Nat → Nat} {memory : Memory EnvVar} {overrides : Slice} {s : Merging}
    {p : List EnvVar × List (String × Nat)} (h : Holds memory s p) (hp : Indexed p)
    (ho : memory.Valid overrides) {i : Nat} {e : EnvVar}
    (he : (memory.read overrides)[i]? = some e) :
    Holds memory (mergeEnvVarAt room overrides s i) (mergeEnvVar p e) := by
  have hlen : p.1.length = s.merged.len := by
    rw [← h.read]
    exact h.owns.valid.length_read
  unfold mergeEnvVarAt mergeEnvVar
  rw [h.owns.read_kept ho, he, h.index]
  cases hi : p.2.lookup e.name with
  | some index =>
    have hlt : index < s.merged.cap := by
      rw [hp] at hi
      have hindex := lastIndex_lt hi
      have hcap := h.owns.valid.len_le
      omega
    simp only [hi]
    exact ⟨h.owns.write hlt e, by rw [Memory.read_write, h.read], rfl⟩
  | none =>
    simp only [hi]
    refine ⟨h.owns.append _ e, ?_, by rw [hlen]⟩
    rw [Memory.read_append h.owns.valid, h.read]

theorem mergeEnvVarsAt_spec (room : Nat → Nat) {memory : Memory EnvVar} (base : Slice)
    {overrides : Slice} (ho : memory.Valid overrides) :
    let out := mergeEnvVarsAt room memory base overrides
    out.1.read out.2 = mergeEnvVars (memory.read base) (memory.read overrides) ∧
      Memory.Owns memory out.1 out.2 := by
  -- after `n` turns the loop holds what the first `n` overrides make of the base
  have hloop : ∀ n ≤ overrides.len, Holds memory
      ((List.range n).foldl (mergeEnvVarAt room overrides)
        { memory := (memory.clone (room base.len) base).1
          merged := (memory.clone (room base.len) base).2
          index := indexByName ((memory.clone (room base.len) base).1.read
            (memory.clone (room base.len) base).2) })
      (((memory.read overrides).take n).foldl mergeEnvVar
        (memory.read base, indexByName (memory.read base))) := by
    intro n hn
    induction n with
    | zero =>
      exact ⟨Memory.Owns.clone memory _ base, Memory.read_clone memory _ base,
        by rw [Memory.read_clone]; rfl⟩
    | succ n ih =>
      have hlt : n < (memory.read overrides).length := by
        rw [ho.length_read]
        omega
      have he := List.getElem?_eq_getElem hlt
      rw [List.range_succ, List.foldl_append, List.take_succ_eq_append_getElem hlt,
        List.foldl_append]
      exact (ih (by omega)).turn
        (mergeEnvVars_loop (indexed_indexByName (memory.read base)) _).2 ho he
  have hend := hloop overrides.len (Nat.le_refl _)
  rw [List.take_of_length_le (Nat.le_of_eq ho.length_read)] at hend
  exact ⟨hend.read, hend.owns⟩

/-! ## What merging does -/

/-- The entry that counts for a name. -/
abbrev lastNamed (n : String) (env : List EnvVar) : Option EnvVar := last EnvVar.name n env

/-- Overrides win, base entries keep their places and new names follow in their
order; merging again changes nothing, and in memory nothing that was there
before is written to, `base` included. -/
theorem mergeEnvVars_last_wins (base overrides : List EnvVar) :
    (∀ n, lastNamed n (mergeEnvVars base overrides) = lastNamed n (base ++ overrides)) ∧
    (∀ (i : Nat) b, base[i]? = some b → ∃ r, (mergeEnvVars base overrides)[i]? = some r ∧
      (r = b ∨ (r ∈ overrides ∧ r.name = b.name))) ∧
    (mergeEnvVars base overrides).map EnvVar.name = base.map EnvVar.name ++
      ((overrides.map EnvVar.name).filter fun n => n ∉ base.map EnvVar.name).eraseDups ∧
    ((base.map EnvVar.name).Nodup → ((mergeEnvVars base overrides).map EnvVar.name).Nodup) ∧
    mergeEnvVars (mergeEnvVars base overrides) overrides = mergeEnvVars base overrides ∧
    ∀ (room : Nat → Nat) (memory : Memory EnvVar) (s t : Slice), memory.Valid s →
      memory.Valid t → memory.read s = base → memory.read t = overrides →
      let out := mergeEnvVarsAt room memory s t
      out.1.read out.2 = mergeEnvVars base overrides ∧ out.1.read s = base ∧
        ∀ a < memory.arrays.length, out.1.arrays[a]? = memory.arrays[a]? := by
  simp only [mergeEnvVars_eq]
  refine ⟨fun n => last_merge n base overrides, fun i b hb => merge_place overrides hb,
    keys_merge base overrides, fun h => nodup_merge h overrides, merge_merge base overrides, ?_⟩
  rintro room memory s t hs ht rfl rfl
  obtain ⟨hread, howns⟩ := mergeEnvVarsAt_spec room s ht
  rw [mergeEnvVars_eq] at hread
  exact ⟨hread, howns.read_kept hs, howns.kept⟩

end RedkeyOperator.Controller
