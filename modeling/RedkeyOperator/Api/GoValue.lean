import Mathlib.Algebra.Group.Nat.Defs
import Mathlib.Data.List.Basic

/-! Go values as reflection sees them, string maps, and decimal numbers. The
operator copies most of the embedded Kubernetes structures without reading
them; `Value` is what it copies, and `Value.derives` is the one-sided
comparison of `equality.Semantic.DeepDerivative`. -/
namespace RedkeyOperator.Api

/-- `nil` is a nil pointer or interface; unset strings, lists and maps are empty. -/
inductive Value where
  | bool (b : Bool)
  | num (n : Int)
  | str (s : String)
  | nil
  | ptr (v : Value)
  | list (vs : List Value)
  | map (entries : List (String × Value))
  | struct (fields : List (String × Value))
deriving Inhabited

mutual
/-- What is unset on the left is ignored: empty strings, lists and maps and nil
pointers. Lists are compared by prefix, maps and structs by the left keys. -/
def Value.derives : Value → Value → Bool
  | .bool a, .bool b => a == b
  | .num a, .num b => a == b
  | .str a, .str b => a == "" || a == b
  | .nil, _ => true
  | .ptr a, .ptr b => a.derives b
  | .list as, .list bs => derivesPrefix as bs
  | .map as, .map bs => derivesEntries as bs
  | .struct as, .struct bs => derivesEntries as bs
  | _, _ => false

def derivesPrefix : List Value → List Value → Bool
  | [], _ => true
  | _ :: _, [] => false
  | a :: as, b :: bs => a.derives b && derivesPrefix as bs

def derivesEntries : List (String × Value) → List (String × Value) → Bool
  | [], _ => true
  | (k, a) :: as, bs => (match bs.lookup k with
    | some b => a.derives b
    | none => false) && derivesEntries as bs
end

/-- `map[string]string`; a nil map is the empty one. -/
abbrev StringMap := List (String × String)

namespace StringMap

def get (m : StringMap) (k : String) : Option String := m.lookup k

def set : StringMap → String → String → StringMap
  | [], k, v => [(k, v)]
  | (k', v') :: m, k, v => if k' == k then (k, v) :: m else (k', v') :: set m k v

/-- `maps.Copy(dst, src)`. -/
def copy (dst src : StringMap) : StringMap := src.foldl (fun m e => set m e.1 e.2) dst

/-- `equality.Semantic.DeepEqual` on maps: the same value under every key. -/
def deepEqual (a b : StringMap) : Bool :=
  (a ++ b).all fun e => get a e.1 == get b e.1

theorem get_set_self (m : StringMap) (k v : String) : get (set m k v) k = some v := by
  induction m with
  | nil => simp [set, get]
  | cons e m ih =>
    obtain ⟨k', v'⟩ := e
    by_cases hk : k' = k
    · simp [set, get, hk]
    · simpa [set, get, hk, List.lookup_cons, beq_eq_false_iff_ne.mpr (Ne.symm hk)] using ih

theorem get_set_of_ne (m : StringMap) {k k' : String} (v : String) (h : k' ≠ k) :
    get (set m k v) k' = get m k' := by
  induction m with
  | nil => simp [set, get, List.lookup_cons, beq_eq_false_iff_ne.mpr h]
  | cons e m ih =>
    obtain ⟨l, u⟩ := e
    by_cases hl : l = k
    · simp [set, get, hl, List.lookup_cons, beq_eq_false_iff_ne.mpr h]
    · have ih' : List.lookup k' (set m k v) = List.lookup k' m := ih
      simp [set, get, hl, List.lookup_cons, ih']

theorem mem_of_get {m : StringMap} {k v : String} (h : get m k = some v) : (k, v) ∈ m := by
  obtain ⟨l₁, l₂, rfl, -⟩ := List.lookup_eq_some_iff.mp h
  simp

theorem deepEqual_iff {a b : StringMap} : deepEqual a b = true ↔ ∀ k, get a k = get b k := by
  rw [deepEqual, List.all_eq_true]
  constructor
  · intro h k
    cases ha : get a k with
    | some v => simpa [ha] using h (k, v) (List.mem_append_left _ (mem_of_get ha))
    | none =>
      cases hb : get b k with
      | none => rfl
      | some v => simpa [ha, hb] using h (k, v) (List.mem_append_right _ (mem_of_get hb))
  · intro h e _
    simp [h]

/-- A key of the copy is one of either map. -/
theorem get_copy_eq_none {dst src : StringMap} {k : String} :
    get (copy dst src) k = none ↔ get dst k = none ∧ get src k = none := by
  induction src generalizing dst with
  | nil => simp [copy, get]
  | cons e src ih =>
    have hset : get (set dst e.1 e.2) k = none ↔ k ≠ e.1 ∧ get dst k = none := by
      by_cases hk : k = e.1
      · simp [hk, get_set_self]
      · simp [hk, get_set_of_ne]
    have hcons : get (e :: src) k = none ↔ k ≠ e.1 ∧ get src k = none := by
      obtain ⟨l, v⟩ := e
      by_cases hk : k = l
      · simp [get, hk]
      · simp [get, List.lookup_cons, hk, beq_eq_false_iff_ne.mpr hk]
    rw [show copy dst (e :: src) = copy (set dst e.1 e.2) src from rfl, ih, hset, hcons]
    tauto

theorem keys_set (m : StringMap) (k v : String) :
    (set m k v).map Prod.fst = if k ∈ m.map Prod.fst then m.map Prod.fst
      else m.map Prod.fst ++ [k] := by
  induction m with
  | nil => rfl
  | cons e m ih =>
    obtain ⟨l, u⟩ := e
    by_cases hl : l = k
    · simp [set, hl]
    · have hk : k ≠ l := Ne.symm hl
      simp only [set, beq_eq_false_iff_ne.mpr hl, Bool.false_eq_true, if_false, List.map_cons, ih,
        List.mem_cons, hk, false_or]
      split <;> rfl

theorem nodup_copy {dst : StringMap} (h : (dst.map Prod.fst).Nodup) (src : StringMap) :
    ((copy dst src).map Prod.fst).Nodup := by
  induction src generalizing dst with
  | nil => exact h
  | cons e src ih =>
    refine ih ?_
    rw [keys_set]
    split
    · exact h
    · rename_i hk
      rw [List.nodup_append]
      refine ⟨h, List.pairwise_singleton _ _, fun a ha b hb => ?_⟩
      rw [List.mem_singleton.mp hb]
      rintro rfl
      exact hk ha

/-- Under a key of the source the copy has its value. -/
theorem get_copy {src : StringMap} (h : (src.map Prod.fst).Nodup) (dst : StringMap) (k : String) :
    get (copy dst src) k = (get src k).or (get dst k) := by
  induction src generalizing dst with
  | nil => rfl
  | cons e src ih =>
    obtain ⟨l, v⟩ := e
    obtain ⟨hl, hn⟩ := List.nodup_cons.mp h
    rw [show copy dst ((l, v) :: src) = copy (set dst l v) src from rfl, ih hn]
    by_cases hk : k = l
    · subst hk
      have hnone : get src k = none := by
        rw [get, List.lookup_eq_none_iff]
        intro p hp
        exact bne_iff_ne.mpr fun he => hl (List.mem_map.mpr ⟨p, hp, he.symm⟩)
      rw [hnone, get_set_self]
      simp [get]
    · rw [get_set_of_ne _ _ hk]
      simp [get, List.lookup_cons, beq_eq_false_iff_ne.mpr hk]

/-- One entry for each key, as in a Go map. -/
def IsMap (m : StringMap) : Prop := (m.map Prod.fst).Nodup

end StringMap

/-- `strconv.FormatInt(n, 10)` of a number that is not negative. -/
def formatInt (n : Nat) : String := toString n

def parseDigits : List Char → Nat → Option Nat
  | [], acc => some acc
  | c :: cs, acc => if c.isDigit then parseDigits cs (acc * 10 + (c.toNat - '0'.toNat)) else none

/-- `strconv.ParseInt(s, 10, 64)`: an optional sign and at least one digit, in
the range of an int64. -/
def parseInt (s : String) : Option Int :=
  match s.toList with
  | [] | ['-'] | ['+'] => none
  | '-' :: ds => (parseDigits ds 0).bind fun n => if n ≤ 2 ^ 63 then some (-n) else none
  | '+' :: ds => (parseDigits ds 0).bind fun n => if n < 2 ^ 63 then some n else none
  | ds => (parseDigits ds 0).bind fun n => if n < 2 ^ 63 then some n else none

theorem parseDigits_eq {cs : List Char} (h : ∀ c ∈ cs, c.isDigit = true) (acc : Nat) :
    parseDigits cs acc = some (Nat.ofDigitChars 10 cs acc) := by
  induction cs generalizing acc with
  | nil => rfl
  | cons c cs ih =>
    have hc : c.isDigit = true := h c (by simp)
    rw [parseDigits, if_pos hc, ih fun d hd => h d (by simp [hd])]
    simp [Nat.ofDigitChars, Nat.mul_comm]

/-- A formatted number is read back. -/
theorem parseInt_formatInt {n : Nat} (h : n < 2 ^ 63) : parseInt (formatInt n) = some (n : Int) := by
  have hl : (formatInt n).toList = Nat.toDigits 10 n := Nat.toList_repr
  have hd : ∀ c ∈ Nat.toDigits 10 n, c.isDigit = true := fun c hc =>
    Nat.isDigit_of_mem_toDigits (by decide) (by decide) hc
  have hp : parseDigits (Nat.toDigits 10 n) 0 = some n := by
    rw [parseDigits_eq hd, Nat.ofDigitChars_toDigits (by decide) (by decide)]
  -- no digit is a sign, so the last alternative applies
  unfold parseInt
  rw [hl]
  split
  · rename_i he; exact absurd he Nat.toDigits_ne_nil
  · rename_i he; rw [he] at hd; exact absurd (hd '-' (by simp)) (by decide)
  · rename_i he; rw [he] at hd; exact absurd (hd '+' (by simp)) (by decide)
  · rename_i ds he; rw [he] at hd; exact absurd (hd '-' (by simp)) (by decide)
  · rename_i ds he; rw [he] at hd; exact absurd (hd '+' (by simp)) (by decide)
  · rw [hp, Option.bind_some, if_pos h]

theorem formatInt_injective {m n : Nat} (h : formatInt m = formatInt n) : m = n := by
  have hd : Nat.toDigits 10 m = Nat.toDigits 10 n := by
    rw [← Nat.toList_repr, ← Nat.toList_repr]
    exact congrArg String.toList h
  have := congrArg (Nat.ofDigitChars 10 · 0) hd
  simpa [Nat.ofDigitChars_toDigits] using this

theorem dash_notMem_formatInt (n : Nat) : '-' ∉ (formatInt n).toList := by
  intro h
  have hd : '-' ∈ Nat.toDigits 10 n := by simpa [formatInt] using h
  exact absurd (Nat.isDigit_of_mem_toDigits (by decide) (by decide) hd) (by decide)

end RedkeyOperator.Api
