import Mathlib.Data.List.Nodup

/-! # Lists with one entry for each key

`upsert` replaces the first entry of a key in place and appends one where there
is none; the new entry may depend on the old one. `upsertAll` does so for
several keys, one after the other. -/
namespace RedkeyOperator.Data.Keyed

variable {α κ : Type} [DecidableEq κ] {key : α → κ}

def lookup (key : α → κ) (k : κ) (l : List α) : Option α := l.find? fun a => key a == k

theorem lookup_some {k : κ} {l : List α} {a : α} (h : lookup key k l = some a) :
    a ∈ l ∧ key a = k :=
  ⟨List.mem_of_find?_eq_some h, by simpa using List.find?_some h⟩

theorem lookup_of_mem {l : List α} (hn : (l.map key).Nodup) {a : α} (h : a ∈ l) :
    lookup key (key a) l = some a := by
  cases hl : lookup key (key a) l with
  | none => exact absurd (beq_self_eq_true (key a)) (List.find?_eq_none.mp hl a h)
  | some b =>
    obtain ⟨hb, hk⟩ := lookup_some hl
    rw [List.inj_on_of_nodup_map hn hb h hk]

def upsert (key : α → κ) (k : κ) (f : Option α → α) : List α → List α
  | [] => [f none]
  | a :: l => if key a = k then f (some a) :: l else a :: upsert key k f l

section upsert
variable {k : κ} {f : Option α → α}

theorem lookup_cons_of_eq {a : α} (l : List α) (h : key a = k) : lookup key k (a :: l) = some a :=
  List.find?_cons_of_pos (by simpa using h)

theorem lookup_cons_of_ne {a : α} (l : List α) (h : key a ≠ k) :
    lookup key k (a :: l) = lookup key k l :=
  List.find?_cons_of_neg (by simpa using h)

theorem lookup_upsert_self (hf : ∀ o, key (f o) = k) (l : List α) :
    lookup key k (upsert key k f l) = some (f (lookup key k l)) := by
  induction l with
  | nil => exact lookup_cons_of_eq [] (hf none)
  | cons a l ih =>
    unfold upsert
    split
    · rename_i h
      rw [lookup_cons_of_eq _ (hf _), lookup_cons_of_eq _ h]
    · rename_i h
      rw [lookup_cons_of_ne _ h, lookup_cons_of_ne _ h, ih]

theorem lookup_upsert_of_ne (hf : ∀ o, key (f o) = k) {j : κ} (h : j ≠ k) (l : List α) :
    lookup key j (upsert key k f l) = lookup key j l := by
  have hne : ∀ o, key (f o) ≠ j := fun o he => h (he.symm.trans (hf o))
  induction l with
  | nil => exact lookup_cons_of_ne [] (hne none)
  | cons a l ih =>
    unfold upsert
    split
    · rename_i ha
      rw [lookup_cons_of_ne _ (hne _), lookup_cons_of_ne _ (ha ▸ h.symm)]
    · simp only [lookup, List.find?_cons] at ih ⊢
      rw [ih]

theorem keys_upsert (hf : ∀ o, key (f o) = k) (l : List α) :
    (upsert key k f l).map key = if k ∈ l.map key then l.map key else l.map key ++ [k] := by
  induction l with
  | nil => simp [upsert, hf]
  | cons a l ih =>
    unfold upsert
    split
    · rename_i h
      simp [hf, h]
    · rename_i h
      rw [List.map_cons, ih, List.map_cons]
      have hk : k ∈ key a :: l.map key ↔ k ∈ l.map key := by simp [Ne.symm h]
      simp only [hk]
      split <;> rfl

theorem nodup_upsert (hf : ∀ o, key (f o) = k) {l : List α} (h : (l.map key).Nodup) :
    ((upsert key k f l).map key).Nodup := by
  rw [keys_upsert hf]
  split
  · exact h
  · rename_i hk
    exact List.nodup_append.mpr ⟨h, by simp, by
      rintro a ha b hb rfl
      exact hk (List.mem_singleton.mp hb ▸ ha)⟩

/-- Entries of other keys stay as they are, in place. -/
theorem filter_upsert (hf : ∀ o, key (f o) = k) {q : κ → Bool} (hq : q k = false) (l : List α) :
    (upsert key k f l).filter (fun a => q (key a)) = l.filter fun a => q (key a) := by
  induction l with
  | nil => simp [upsert, hf, hq]
  | cons a l ih =>
    unfold upsert
    split
    · rename_i h
      simp [hf, h, hq]
    · simp only [List.filter_cons, ih]

/-- Nothing changes where the entry is what it would become. -/
theorem upsert_eq_self {l : List α} {a : α} (hl : lookup key k l = some a)
    (ha : f (some a) = a) : upsert key k f l = l := by
  induction l with
  | nil => cases hl
  | cons b l ih =>
    unfold upsert
    split
    · rename_i h
      rw [lookup_cons_of_eq _ h] at hl
      rw [Option.some.inj hl, ha]
    · rename_i h
      rw [lookup_cons_of_ne _ h] at hl
      rw [ih hl]

end upsert

def upsertAll (key : α → κ) (entries : List (κ × (Option α → α))) (l : List α) : List α :=
  entries.foldl (fun l e => upsert key e.1 e.2 l) l

section upsertAll
variable {entries : List (κ × (Option α → α))}

theorem lookup_upsertAll_of_notMem (hf : ∀ e ∈ entries, ∀ o, key (e.2 o) = e.1) {k : κ}
    (hk : k ∉ entries.map Prod.fst) (l : List α) :
    lookup key k (upsertAll key entries l) = lookup key k l := by
  induction entries generalizing l with
  | nil => rfl
  | cons e es ih =>
    obtain ⟨hne, hk⟩ := not_or.mp (mt List.mem_cons.mpr hk)
    have hfe := List.forall_mem_cons.mp hf
    exact (ih hfe.2 hk _).trans (lookup_upsert_of_ne hfe.1 hne l)

/-- With one entry for a key, that entry is applied to what was there before. -/
theorem lookup_upsertAll_of_mem (hf : ∀ e ∈ entries, ∀ o, key (e.2 o) = e.1)
    (hn : (entries.map Prod.fst).Nodup) {e : κ × (Option α → α)} (he : e ∈ entries) (l : List α) :
    lookup key e.1 (upsertAll key entries l) = some (e.2 (lookup key e.1 l)) := by
  induction entries generalizing l with
  | nil => cases he
  | cons d es ih =>
    have hfe := List.forall_mem_cons.mp hf
    obtain ⟨hd, hn⟩ := List.nodup_cons.mp hn
    show lookup key e.1 (upsertAll key es (upsert key d.1 d.2 l)) = _
    rcases List.mem_cons.mp he with rfl | he
    · rw [lookup_upsertAll_of_notMem hfe.2 hd, lookup_upsert_self hfe.1]
    · have hne : e.1 ≠ d.1 := fun h => hd (h ▸ List.mem_map_of_mem he)
      rw [ih hfe.2 hn he, lookup_upsert_of_ne hfe.1 hne]

theorem nodup_upsertAll (hf : ∀ e ∈ entries, ∀ o, key (e.2 o) = e.1) {l : List α}
    (h : (l.map key).Nodup) : ((upsertAll key entries l).map key).Nodup := by
  induction entries generalizing l with
  | nil => exact h
  | cons e es ih =>
    have hfe := List.forall_mem_cons.mp hf
    exact ih hfe.2 (nodup_upsert hfe.1 h)

theorem filter_upsertAll (hf : ∀ e ∈ entries, ∀ o, key (e.2 o) = e.1) {q : κ → Bool}
    (hq : ∀ e ∈ entries, q e.1 = false) (l : List α) :
    (upsertAll key entries l).filter (fun a => q (key a)) = l.filter fun a => q (key a) := by
  induction entries generalizing l with
  | nil => rfl
  | cons e es ih =>
    have hfe := List.forall_mem_cons.mp hf
    have hqe := List.forall_mem_cons.mp hq
    exact (ih hfe.2 hqe.2 _).trans (filter_upsert hfe.1 hqe.1 l)

theorem upsertAll_eq_self {l : List α}
    (h : ∀ e ∈ entries, ∃ a, lookup key e.1 l = some a ∧ e.2 (some a) = a) :
    upsertAll key entries l = l := by
  induction entries with
  | nil => rfl
  | cons e es ih =>
    obtain ⟨⟨a, hl, ha⟩, hes⟩ := List.forall_mem_cons.mp h
    show upsertAll key es (upsert key e.1 e.2 l) = l
    rw [upsert_eq_self hl ha]
    exact ih hes

end upsertAll
end RedkeyOperator.Data.Keyed
