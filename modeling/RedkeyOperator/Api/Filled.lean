import RedkeyOperator.Api.GoValue

/-! # Defaults filled in by the API server

`a.Fills b`: `b` is `a` with values in places where nothing was set. What is
compared one-sidedly does not see them. -/
namespace RedkeyOperator.Api

mutual
/-- Empty strings, nil pointers and empty lists and maps may be filled in. -/
inductive Value.Fills : Value → Value → Prop where
  | bool (b : Bool) : Value.Fills (.bool b) (.bool b)
  | num (n : Int) : Value.Fills (.num n) (.num n)
  | str (s : String) : Value.Fills (.str s) (.str s)
  | unsetStr (s : String) : Value.Fills (.str "") (.str s)
  | nil (v : Value) : Value.Fills .nil v
  | ptr {a b : Value} (h : a.Fills b) : Value.Fills (.ptr a) (.ptr b)
  | list {as bs : List Value} (h : FillsItems as bs) : Value.Fills (.list as) (.list bs)
  | unsetList (bs : List Value) : Value.Fills (.list []) (.list bs)
  | map {as bs : List (String × Value)} (h : FillsEntries as bs) : Value.Fills (.map as) (.map bs)
  | struct {as bs : List (String × Value)} (h : FillsEntries as bs) :
      Value.Fills (.struct as) (.struct bs)

inductive FillsItems : List Value → List Value → Prop where
  | nil : FillsItems [] []
  | cons {a b : Value} {as bs : List Value} (h : a.Fills b) (ht : FillsItems as bs) :
      FillsItems (a :: as) (b :: bs)

/-- Every entry on the left is kept; there may be more on the right. -/
inductive FillsEntries : List (String × Value) → List (String × Value) → Prop where
  | nil (bs : List (String × Value)) : FillsEntries [] bs
  | cons {k : String} {a b : Value} {as bs : List (String × Value)} (hk : bs.lookup k = some b)
      (h : a.Fills b) (ht : FillsEntries as bs) : FillsEntries ((k, a) :: as) bs
end

theorem FillsEntries.lookup {as bs : List (String × Value)} (h : FillsEntries as bs) {k : String}
    {a : Value} (hk : as.lookup k = some a) : ∃ b, bs.lookup k = some b ∧ a.Fills b := by
  induction as with
  | nil => cases hk
  | cons e as ih =>
    cases h with
    | @cons k' a' b _ _ hk' hf ht =>
      by_cases he : k = k'
      · subst he
        rw [List.lookup_cons_self] at hk
        cases hk
        exact ⟨b, hk', hf⟩
      · rw [List.lookup_cons, beq_eq_false_iff_ne.mpr he] at hk
        exact ih ht hk

mutual
/-- What is sent is found again in what is stored. -/
theorem Value.Fills.derives : ∀ {a b : Value}, a.Fills b → a.derives b = true
  | .bool _, _, h => by cases h; simp [Value.derives]
  | .num _, _, h => by cases h; simp [Value.derives]
  | .str _, _, h => by cases h <;> simp [Value.derives]
  | .nil, _, h => by simp [Value.derives]
  | .ptr a, _, h => by
    cases h with
    | ptr h => simpa [Value.derives] using h.derives
  | .list as, _, h => by
    cases h with
    | list h => simpa [Value.derives] using h.derives
    | unsetList => simp [Value.derives, derivesPrefix]
  | .map as, _, h => by
    cases h with
    | map h => simpa [Value.derives] using h.derives
  | .struct as, _, h => by
    cases h with
    | struct h => simpa [Value.derives] using h.derives

theorem FillsItems.derives : ∀ {as bs : List Value}, FillsItems as bs → derivesPrefix as bs = true
  | [], _, _ => by simp [derivesPrefix]
  | a :: as, _, h => by
    cases h with
    | cons h ht => simp [derivesPrefix, h.derives, ht.derives]

theorem FillsEntries.derives : ∀ {as bs : List (String × Value)}, FillsEntries as bs →
    derivesEntries as bs = true
  | [], _, _ => by simp [derivesEntries]
  | (k, a) :: as, _, h => by
    cases h with
    | cons hk h ht => simp [derivesEntries, hk, h.derives, ht.derives]
end

mutual
/-- What is found in a value is found after it was filled in. -/
theorem Value.derives_fills : ∀ {a b c : Value}, a.derives b = true → b.Fills c → a.derives c = true
  | .bool _, _, _, h, hf => by
    cases hf <;> simp_all [Value.derives]
  | .num _, _, _, h, hf => by
    cases hf <;> simp_all [Value.derives]
  | .str _, _, _, h, hf => by
    cases hf <;> simp_all [Value.derives]
  | .nil, _, _, _, _ => by simp [Value.derives]
  | .ptr a, _, _, h, hf => by
    cases hf with
    | ptr hf =>
      rw [Value.derives] at h ⊢
      exact Value.derives_fills h hf
    | _ => simp [Value.derives] at h
  | .list as, _, _, h, hf => by
    cases hf with
    | list hf =>
      rw [Value.derives] at h ⊢
      exact derivesPrefix_fills h hf
    | unsetList bs =>
      cases as with
      | nil => simp [Value.derives, derivesPrefix]
      | cons a as => simp [Value.derives, derivesPrefix] at h
    | _ => simp [Value.derives] at h
  | .map as, _, _, h, hf => by
    cases hf with
    | map hf =>
      rw [Value.derives] at h ⊢
      exact derivesEntries_fills h hf
    | _ => simp [Value.derives] at h
  | .struct as, _, _, h, hf => by
    cases hf with
    | struct hf =>
      rw [Value.derives] at h ⊢
      exact derivesEntries_fills h hf
    | _ => simp [Value.derives] at h

theorem derivesPrefix_fills : ∀ {as bs cs : List Value}, derivesPrefix as bs = true →
    FillsItems bs cs → derivesPrefix as cs = true
  | [], _, _, _, _ => by simp [derivesPrefix]
  | a :: as, _, _, h, hf => by
    cases hf with
    | nil => simp [derivesPrefix] at h
    | cons hf ht =>
      rw [derivesPrefix, Bool.and_eq_true] at h ⊢
      exact ⟨Value.derives_fills h.1 hf, derivesPrefix_fills h.2 ht⟩

theorem derivesEntries_fills : ∀ {as bs cs : List (String × Value)}, derivesEntries as bs = true →
    FillsEntries bs cs → derivesEntries as cs = true
  | [], _, _, _, _ => by simp [derivesEntries]
  | (k, a) :: as, bs, cs, h, hf => by
    rw [derivesEntries, Bool.and_eq_true] at h ⊢
    refine ⟨?_, derivesEntries_fills h.2 hf⟩
    cases hb : bs.lookup k with
    | none => simp [hb] at h
    | some b =>
      obtain ⟨c, hc, hbc⟩ := hf.lookup hb
      simp only [hb] at h
      simp only [hc]
      exact Value.derives_fills h.1 hbc
end

end RedkeyOperator.Api
