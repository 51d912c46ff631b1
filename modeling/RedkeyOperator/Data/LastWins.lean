import Mathlib.Data.List.Nodup

/-! # Lists in which the last entry of a key counts

`put` replaces the last entry of a key in place and appends one where there is
none; `merge` puts several entries, one after the other. `lastIndex` is where
`put` replaces, so a loop that keeps an index of the keys is a `merge`. -/
namespace RedkeyOperator.Data.LastWins

variable {α κ : Type} [DecidableEq κ] {key : α → κ}

/-- The last entry with key `k`. -/
def last (key : α → κ) (k : κ) (l : List α) : Option α := (l.filter fun a => key a == k).getLast?

def put (key : α → κ) (e : α) : List α → List α
  | [] => [e]
  | a :: l => if key a = key e ∧ key e ∉ l.map key then e :: l else a :: put key e l

def merge (key : α → κ) (l es : List α) : List α := es.foldl (fun l e => put key e l) l

/-! ## The last entry -/

theorem last_append (k : κ) (l es : List α) :
    last key k (l ++ es) = (last key k es).or (last key k l) := by
  simp only [last, List.filter_append, List.getLast?_append]

theorem last_singleton (k : κ) (a : α) : last key k [a] = if key a = k then some a else none := by
  unfold last
  by_cases h : key a = k <;> simp [h]

theorem last_cons (k : κ) (a : α) (l : List α) :
    last key k (a :: l) = (last key k l).or (if key a = k then some a else none) := by
  rw [← last_singleton, ← last_append]
  rfl

theorem last_eq_none {k : κ} {l : List α} : last key k l = none ↔ k ∉ l.map key := by
  simp [last]

theorem last_put (e : α) (k : κ) (l : List α) :
    last key k (put key e l) = if k = key e then some e else last key k l := by
  induction l with
  | nil =>
    rw [put, last_singleton]
    simp only [eq_comm]
    rfl
  | cons a l ih =>
    unfold put
    split
    · rename_i h
      obtain ⟨ha, hl⟩ := h
      rw [last_cons, last_cons]
      by_cases hk : k = key e
      · subst hk
        simp [last_eq_none.mpr hl]
      · simp [hk, Ne.symm hk, ha]
    · rename_i h
      rw [last_cons, last_cons, ih]
      by_cases hk : k = key e
      · simp [hk]
      · simp [hk]

theorem last_merge (k : κ) (l es : List α) :
    last key k (merge key l es) = last key k (l ++ es) := by
  rw [last_append]
  induction es generalizing l with
  | nil => rfl
  | cons e es ih =>
    rw [show merge key l (e :: es) = merge key (put key e l) es from rfl, ih, last_put, last_cons]
    by_cases hk : k = key e
    · simp [hk]
    · simp [hk, Ne.symm hk]

/-! ## The keys -/

theorem keys_put (e : α) (l : List α) :
    (put key e l).map key =
      if key e ∈ l.map key then l.map key else l.map key ++ [key e] := by
  induction l with
  | nil => rfl
  | cons a l ih =>
    unfold put
    split
    · rename_i h
      simp [h.1]
    · rename_i h
      rw [List.map_cons, ih]
      by_cases ha : key a = key e
      · have hl : key e ∈ l.map key := by
          by_contra hl
          exact h ⟨ha, hl⟩
        simp [ha, hl]
      · simp only [List.map_cons, List.mem_cons, Ne.symm ha, false_or]
        split <;> simp

/-- New keys follow in the order in which they come up. -/
theorem keys_merge (l es : List α) :
    (merge key l es).map key =
      l.map key ++ ((es.map key).filter fun k => k ∉ l.map key).eraseDups := by
  induction es generalizing l with
  | nil => simp [merge]
  | cons e es ih =>
    rw [show merge key l (e :: es) = merge key (put key e l) es from rfl, ih, keys_put]
    by_cases he : key e ∈ l.map key
    · rw [if_pos he, List.map_cons, List.filter_cons_of_neg (by simpa using he)]
    · rw [if_neg he, List.map_cons, List.filter_cons_of_pos (by simpa using he),
        List.eraseDups_cons, List.append_assoc, List.filter_filter, List.singleton_append]
      congr 3
      refine List.filter_congr fun k _ => ?_
      simp [Bool.and_comm, Bool.beq_eq_decide_eq]

theorem nodup_put {l : List α} (h : (l.map key).Nodup) (e : α) : ((put key e l).map key).Nodup := by
  rw [keys_put]
  split
  · exact h
  · rename_i he
    exact List.nodup_append.mpr ⟨h, List.pairwise_singleton _ _, by grind⟩

theorem nodup_merge {l : List α} (h : (l.map key).Nodup) (es : List α) :
    ((merge key l es).map key).Nodup := by
  induction es generalizing l with
  | nil => exact h
  | cons e es ih => exact ih (nodup_put h e)

/-- With one entry for each key the last is the only one. -/
theorem filter_eq_last {l : List α} (h : (l.map key).Nodup) (k : κ) :
    l.filter (fun a => key a == k) = (last key k l).toList := by
  have hall : ∀ a ∈ l.filter fun a => key a == k, key a = k := by
    intro a ha
    simpa using (List.mem_filter.mp ha).2
  have hnodup : ((l.filter fun a => key a == k).map key).Nodup :=
    h.sublist (List.filter_sublist.map key)
  unfold last
  generalize l.filter (fun a => key a == k) = f at hall hnodup
  match f with
  | [] => rfl
  | [a] => rfl
  | a :: b :: f =>
    have hab : key a = key b := (hall a (by simp)).trans (hall b (by simp)).symm
    simp [hab] at hnodup

theorem mem_iff_last {l : List α} (h : (l.map key).Nodup) {a : α} {k : κ} :
    (a ∈ l ∧ key a = k) ↔ last key k l = some a := by
  have hf := filter_eq_last h k
  rw [← Option.mem_toList, ← hf, List.mem_filter, beq_iff_eq]

/-! ## The places -/

/-- An entry stays as it is or is replaced by one of its key. -/
def Replaced (key : α → κ) (es : List α) (a b : α) : Prop := b = a ∨ (b ∈ es ∧ key b = key a)

omit [DecidableEq κ] in
theorem Replaced.trans {es fs : List α} {a b c : α} (h : Replaced key es a b)
    (h' : Replaced key fs b c) : Replaced key (es ++ fs) a c := by
  rcases h' with rfl | ⟨hc, hk⟩
  · rcases h with rfl | ⟨hb, hk⟩
    · exact .inl rfl
    · exact .inr ⟨List.mem_append_left _ hb, hk⟩
  · refine .inr ⟨List.mem_append_right _ hc, hk.trans ?_⟩
    rcases h with rfl | ⟨-, hk'⟩
    · rfl
    · exact hk'

theorem put_place (e : α) {l : List α} {i : Nat} {a : α} (h : l[i]? = some a) :
    ∃ b, (put key e l)[i]? = some b ∧ Replaced key [e] a b := by
  induction l generalizing i with
  | nil => simp at h
  | cons c l ih =>
    unfold put
    split
    · rename_i hc
      cases i with
      | zero =>
        simp only [List.getElem?_cons_zero, Option.some.injEq] at h
        subst h
        exact ⟨e, by simp, .inr ⟨by simp, hc.1.symm⟩⟩
      | succ i => exact ⟨a, by simpa using h, .inl rfl⟩
    · cases i with
      | zero => exact ⟨a, by simpa using h, .inl rfl⟩
      | succ i =>
        obtain ⟨b, hb, hr⟩ := ih (by simpa using h)
        exact ⟨b, by simpa using hb, hr⟩

theorem merge_place (es : List α) {l : List α} {i : Nat} {a : α} (h : l[i]? = some a) :
    ∃ b, (merge key l es)[i]? = some b ∧ Replaced key es a b := by
  induction es generalizing l a with
  | nil => exact ⟨a, h, .inl rfl⟩
  | cons e es ih =>
    obtain ⟨b, hb, hr⟩ : ∃ b, (put key e l)[i]? = some b ∧ Replaced key [e] a b := put_place e h
    obtain ⟨c, hc, hr'⟩ := ih hb
    exact ⟨c, hc, hr.trans hr'⟩

/-! ## Merging again -/

/-- Replace the last entry of each key by what `f` has for it. -/
def override (key : α → κ) (f : κ → Option α) : List α → List α
  | [] => []
  | a :: l => (if key a ∈ l.map key then a else (f (key a)).getD a) :: override key f l

theorem override_congr {f g : κ → Option α} {l : List α} (h : ∀ k ∈ l.map key, f k = g k) :
    override key f l = override key g l := by
  induction l with
  | nil => rfl
  | cons a l ih =>
    unfold override
    rw [h (key a) (by simp), ih fun k hk => h k (List.mem_cons_of_mem _ hk)]

theorem override_put (f : κ → Option α) {e : α} {l : List α} (h : key e ∈ l.map key) :
    override key f (put key e l) =
      override key (fun k => (f k).or (if k = key e then some e else none)) l := by
  induction l with
  | nil => simp at h
  | cons a l ih =>
    unfold put
    split
    · rename_i hc
      obtain ⟨ha, hl⟩ := hc
      have htail : override key f l =
          override key (fun k => (f k).or (if k = key e then some e else none)) l := by
        refine override_congr fun k hk => ?_
        have hne : k ≠ key e := by
          rintro rfl
          exact hl hk
        simp [hne]
      unfold override
      rw [htail, if_neg hl, ha, if_neg hl]
      cases f (key e) <;> simp
    · rename_i hc
      have hl : key e ∈ l.map key := by
        rcases List.mem_cons.mp h with ha | hl
        · by_contra hl
          exact hc ⟨ha.symm, hl⟩
        · exact hl
      unfold override
      rw [ih hl, keys_put, if_pos hl]
      split
      · rfl
      · rename_i ha
        have hne : key a ≠ key e := by
          intro he
          exact ha (he ▸ hl)
        simp [hne]

theorem override_eq_self {f : κ → Option α} {l : List α}
    (h : ∀ k ∈ l.map key, ∀ e, f k = some e → last key k l = some e) : override key f l = l := by
  induction l with
  | nil => rfl
  | cons a l ih =>
    unfold override
    have htail : ∀ k ∈ l.map key, ∀ e, f k = some e → last key k l = some e := by
      intro k hk e he
      have hlast := h k (List.mem_cons_of_mem _ hk) e he
      rw [last_cons] at hlast
      cases hl : last key k l with
      | none => exact absurd hk (last_eq_none.mp hl)
      | some b => simpa [hl] using hlast
    rw [ih htail]
    split
    · rfl
    · rename_i ha
      cases hf : f (key a) with
      | none => rfl
      | some e =>
        have hlast := h (key a) (by simp) e hf
        rw [last_cons, last_eq_none.mpr ha] at hlast
        simp only [if_true, Option.none_or, Option.some.injEq] at hlast
        rw [hlast]
        rfl

theorem merge_eq_override {l es : List α} (h : ∀ e ∈ es, key e ∈ l.map key) :
    merge key l es = override key (fun k => last key k es) l := by
  induction es generalizing l with
  | nil => exact (override_eq_self fun k _ e he => by simp [last] at he).symm
  | cons e es ih =>
    obtain ⟨he, hes⟩ := List.forall_mem_cons.mp h
    have hput : ∀ e' ∈ es, key e' ∈ (put key e l).map key := by
      intro e' he'
      rw [keys_put, if_pos he]
      exact hes e' he'
    rw [show merge key l (e :: es) = merge key (put key e l) es from rfl, ih hput,
      override_put _ he]
    refine override_congr fun k _ => ?_
    rw [last_cons]
    simp only [eq_comm]

/-- What has been merged is not changed by merging it again. -/
theorem merge_merge (l es : List α) : merge key (merge key l es) es = merge key l es := by
  have hmem : ∀ e ∈ es, key e ∈ (merge key l es).map key := by
    intro e he
    by_contra hn
    have hnone := last_eq_none.mpr hn
    rw [last_merge, last_append, Option.or_eq_none_iff] at hnone
    exact last_eq_none.mp hnone.1 (List.mem_map_of_mem he)
  rw [merge_eq_override hmem]
  refine override_eq_self fun k _ e he => ?_
  rw [last_merge, last_append, he]
  rfl

/-! ## An index of the last entries -/

def lastIndex (key : α → κ) (k : κ) : List α → Option Nat
  | [] => none
  | a :: l => ((lastIndex key k l).map (· + 1)).or (if key a = k then some 0 else none)

theorem lastIndex_eq_none {k : κ} {l : List α} : lastIndex key k l = none ↔ k ∉ l.map key := by
  induction l with
  | nil => simp [lastIndex]
  | cons a l ih =>
    simp only [lastIndex, Option.or_eq_none_iff, Option.map_eq_none_iff, ih, List.map_cons,
      List.mem_cons, not_or]
    by_cases ha : key a = k
    · simp [ha]
    · simp [ha, Ne.symm ha]

theorem lastIndex_concat (k : κ) (l : List α) (a : α) :
    lastIndex key k (l ++ [a]) = if key a = k then some l.length else lastIndex key k l := by
  induction l with
  | nil => simp [lastIndex]
  | cons b l ih =>
    rw [List.cons_append, lastIndex, ih, lastIndex]
    by_cases ha : key a = k <;> simp [ha]

/-- The index depends on the keys only. -/
theorem lastIndex_congr {l l' : List α} (h : l.map key = l'.map key) (k : κ) :
    lastIndex key k l = lastIndex key k l' := by
  induction l generalizing l' with
  | nil => rw [List.map_eq_nil_iff.mp h.symm]
  | cons a l ih =>
    cases l' with
    | nil => simp at h
    | cons b l' =>
      obtain ⟨hab, hl⟩ := List.cons.inj h
      rw [lastIndex, lastIndex, ih hl, hab]

theorem put_of_lastIndex_none {e : α} {l : List α} (h : lastIndex key (key e) l = none) :
    put key e l = l ++ [e] := by
  rw [lastIndex_eq_none] at h
  induction l with
  | nil => rfl
  | cons a l ih =>
    simp only [List.map_cons, List.mem_cons, not_or] at h
    rw [put, if_neg fun hc => h.1 hc.1.symm, ih h.2]
    rfl

theorem put_of_lastIndex {e : α} {l : List α} {i : Nat} (h : lastIndex key (key e) l = some i) :
    put key e l = l.set i e := by
  induction l generalizing i with
  | nil => simp [lastIndex] at h
  | cons a l ih =>
    rw [lastIndex] at h
    cases hl : lastIndex key (key e) l with
    | none =>
      rw [hl] at h
      have ha : key a = key e := by
        by_contra ha
        simp [ha] at h
      have hi : 0 = i := by simpa [ha] using h
      subst hi
      rw [put, if_pos ⟨ha, lastIndex_eq_none.mp hl⟩]
      rfl
    | some j =>
      rw [hl] at h
      have hi : j + 1 = i := by simpa using h
      subst hi
      have hmem : key e ∈ l.map key := by
        by_contra hn
        rw [lastIndex_eq_none.mpr hn] at hl
        cases hl
      rw [put, if_neg fun hc => hc.2 hmem, ih hl]
      rfl

theorem lastIndex_lt {k : κ} {l : List α} {i : Nat} (h : lastIndex key k l = some i) :
    i < l.length := by
  induction l generalizing i with
  | nil => simp [lastIndex] at h
  | cons a l ih =>
    rw [lastIndex] at h
    cases hl : lastIndex key k l with
    | none =>
      rw [hl] at h
      have hi : i = 0 := by
        simp only [Option.map_none, Option.none_or] at h
        split at h
        · exact (Option.some.inj h).symm
        · cases h
      simp [hi]
    | some j =>
      rw [hl] at h
      have hi : j + 1 = i := by simpa using h
      have := ih hl
      simp only [List.length_cons]
      omega

end RedkeyOperator.Data.LastWins
