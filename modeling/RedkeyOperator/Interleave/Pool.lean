import Mathlib.Logic.Function.Basic
import RedkeyOperator.Interleave.Parallel

/-! # Many programs against one service

Programs run side by side, at most one for each key, their calls interleaved in
any way, and every key has a session of its own with the service. A program may
be stopped at any time. Seen from one key, such a run is a run of its program
alone against a smaller service, if what the others do is not seen and its own
calls are answered as the smaller service answers them (`Alone.reaches`). -/
namespace RedkeyOperator.Interleave

structure Hub (S : Signature) (K : Type) where
  World : Type
  Ev : Type
  Outcome : Type
  env : Ev → World → Option World
  answer : K → (c : S.Call) → Outcome → World → Option (Except S.Err (S.Reply c) × World)
  enter : K → World → World

namespace Hub
variable {S : Signature} {K : Type} {H : Hub S K} {α : Type}

structure Pool (H : Hub S K) (α : Type) where
  world : H.World
  running : K → Option (Prog S α)

/-- Nothing runs. -/
def Pool.idle (w : H.World) : Pool H α := ⟨w, fun _ => none⟩

inductive Event (H : Hub S K) where
  | env (e : H.Ev)
  | start (k : K)
  | call (k : K) (o : H.Outcome)
  | stop (k : K)

/-- The events a run may take. -/
structure Terms (H : Hub S K) where
  env : H.Ev → H.World → Bool
  call : K → (c : S.Call) → H.Outcome → H.World → Bool

def Terms.allow (T : Terms H) : Event H → Pool H α → Bool
  | .env e, s => T.env e s.world
  | .call k o, s => match s.running k with
    | some (.call c _) => T.call k c o s.world
    | _ => true
  | _, _ => true

variable [DecidableEq K]

def step (main : K → Prog S α) : Event H → Pool H α → Option (Pool H α)
  | .env e, s => (H.env e s.world).map fun w => { s with world := w }
  | .start k, s => match s.running k with
    | none => some ⟨H.enter k s.world, Function.update s.running k (some (main k))⟩
    | some _ => none
  | .call k o, s => match s.running k with
    | some (.call c f) => (H.answer k c o s.world).map fun a =>
      ⟨a.2, Function.update s.running k (some (f a.1))⟩
    | _ => none
  | .stop k, s => match s.running k with
    | none => none
    | some _ => some { s with running := Function.update s.running k none }

section
variable {main : K → Prog S α} {s t : Pool H α} {k : K}

theorem step_env {e : H.Ev} (h : step main (.env e) s = some t) :
    H.env e s.world = some t.world ∧ t.running = s.running := by
  obtain ⟨w, hw, rfl⟩ := Option.map_eq_some_iff.mp h
  exact ⟨hw, rfl⟩

theorem step_start (h : step main (.start k) s = some t) :
    s.running k = none ∧ t.world = H.enter k s.world ∧
      t.running = Function.update s.running k (some (main k)) := by
  simp only [step] at h
  split at h
  · cases h
    exact ⟨by assumption, rfl, rfl⟩
  · cases h

theorem step_call {o : H.Outcome} (h : step main (.call k o) s = some t) :
    ∃ c f r, s.running k = some (.call c f) ∧ H.answer k c o s.world = some (r, t.world) ∧
      t.running = Function.update s.running k (some (f r)) := by
  simp only [step] at h
  split at h
  · rename_i c f hk
    obtain ⟨⟨r, w⟩, hans, rfl⟩ := Option.map_eq_some_iff.mp h
    exact ⟨c, f, r, hk, hans, rfl⟩
  · cases h

theorem step_stop (h : step main (.stop k) s = some t) :
    t.world = s.world ∧ t.running = Function.update s.running k none := by
  simp only [step] at h
  split at h
  · cases h
  · cases h
    exact ⟨rfl, rfl⟩

end

inductive Reaches (T : Terms H) (main : K → Prog S α) (s₀ : Pool H α) : Pool H α → Prop where
  | refl : Reaches T main s₀ s₀
  | step {s t : Pool H α} (e : Event H) (hs : Reaches T main s₀ s)
      (ok : T.allow e s = true) (ht : step main e s = some t) : Reaches T main s₀ t

/-! ## Runs by evaluation -/

def play (T : Terms H) (main : K → Prog S α) : List (Event H) → Pool H α → Option (Pool H α)
  | [], s => some s
  | e :: es, s => if T.allow e s then (step main e s).bind (play T main es) else none

theorem reaches_of_play {T : Terms H} {main : K → Prog S α} {s₀ s t : Pool H α}
    {es : List (Event H)} (hs : Reaches T main s₀ s) (h : play T main es s = some t) :
    Reaches T main s₀ t := by
  induction es generalizing s with
  | nil =>
    cases h
    exact hs
  | cons e es ih =>
    simp only [play] at h
    split at h
    · obtain ⟨u, hu, hplay⟩ := Option.bind_eq_some_iff.mp h
      exact ih (.step e hs (by assumption) hu) hplay
    · cases h

/-- A script whose last state passes a test reaches a state that passes it. -/
theorem exists_reaches_of_play {T : Terms H} {main : K → Prog S α} {s₀ : Pool H α}
    (es : List (Event H)) (p : Pool H α → Bool) (h : (play T main es s₀).any p = true) :
    ∃ s, Reaches T main s₀ s ∧ p s = true := by
  cases hp : play T main es s₀ with
  | none =>
    rw [hp] at h
    cases h
  | some s => exact ⟨s, reaches_of_play .refl hp, by simpa [hp] using h⟩

/-! ## Programs that keep to their calls -/

section
variable {I : H.World → Prop} {own : K → S.Call → Prop}
  {sound : K → (c : S.Call) → Except S.Err (S.Reply c) → Prop} {Q : α → Prop}
  {T : Terms H} {main : K → Prog S α} {s₀ s : Pool H α}

/-- An invariant of the world, as long as every key makes `own` calls only. It need
only be kept up to a last world that is `ok`, and then all worlds before it are:
what the calls rest on may be anything that the worlds remember. -/
structure KeepsUpTo (H : Hub S K) (ok I : H.World → Prop) (own : K → S.Call → Prop)
    (sound : K → (c : S.Call) → Except S.Err (S.Reply c) → Prop) : Prop where
  before_env : ∀ {e : H.Ev} {w w' : H.World}, H.env e w = some w' → ok w' → ok w
  before_enter : ∀ {k : K} {w : H.World}, ok (H.enter k w) → ok w
  before_answer : ∀ {k : K} {c : S.Call} {o : H.Outcome} {r : Except S.Err (S.Reply c)}
    {w w' : H.World}, H.answer k c o w = some (r, w') → ok w' → ok w
  env : ∀ {e : H.Ev} {w w' : H.World}, ok w' → I w → H.env e w = some w' → I w'
  enter : ∀ {k : K} {w : H.World}, I w → I (H.enter k w)
  answer : ∀ {k : K} {c : S.Call} {o : H.Outcome} {r : Except S.Err (S.Reply c)} {w w' : H.World},
    ok w' → own k c → I w → H.answer k c o w = some (r, w') → I w' ∧ sound k c r

theorem Reaches.within_upTo {ok : H.World → Prop} (h : Reaches T main s₀ s)
    (hI : KeepsUpTo H ok I own sound) (hmain : ∀ k, (main k).Within (own k) (sound k) Q)
    (h₀ : I s₀.world) (hidle : ∀ k, s₀.running k = none) (hok : ok s.world) :
    I s.world ∧ ∀ k m, s.running k = some m → m.Within (own k) (sound k) Q := by
  induction h with
  | refl => exact ⟨h₀, fun k m hm => by rw [hidle k] at hm; cases hm⟩
  | @step s t e _ _ ht ih =>
    -- the other programs are where they were
    have update : ∀ {k : K} {p : Option (Prog S α)},
        (∀ j m, s.running j = some m → m.Within (own j) (sound j) Q) →
        t.running = Function.update s.running k p →
        (∀ m, p = some m → m.Within (own k) (sound k) Q) →
        ∀ j m, t.running j = some m → m.Within (own j) (sound j) Q := by
      intro k p hrun ht hp j m hm
      rw [ht] at hm
      by_cases hj : j = k
      · subst hj
        rw [Function.update_self] at hm
        exact hp m hm
      · rw [Function.update_of_ne hj] at hm
        exact hrun j m hm
    cases e with
    | env e =>
      obtain ⟨hw', ht⟩ := step_env ht
      obtain ⟨hw, hrun⟩ := ih (hI.before_env hw' hok)
      exact ⟨hI.env hok hw hw', ht ▸ hrun⟩
    | start k =>
      obtain ⟨-, hw', ht⟩ := step_start ht
      rw [hw'] at hok ⊢
      obtain ⟨hw, hrun⟩ := ih (hI.before_enter hok)
      refine ⟨hI.enter hw, update hrun ht fun m hm => ?_⟩
      cases hm
      exact hmain k
    | call k o =>
      obtain ⟨c, f, r, hk, hans, ht⟩ := step_call ht
      obtain ⟨hw, hrun⟩ := ih (hI.before_answer hans hok)
      have hwithin := hrun k _ hk
      obtain ⟨hw', hsound⟩ := hI.answer hok hwithin.1 hw hans
      refine ⟨hw', update hrun ht fun m hm => ?_⟩
      cases hm
      exact hwithin.2 r hsound
    | stop k =>
      obtain ⟨hw', ht⟩ := step_stop ht
      rw [hw'] at hok ⊢
      obtain ⟨hw, hrun⟩ := ih hok
      exact ⟨hw, update hrun ht fun m hm => by cases hm⟩

/-- An invariant that is kept by all runs. -/
structure Keeps (H : Hub S K) (I : H.World → Prop) (own : K → S.Call → Prop)
    (sound : K → (c : S.Call) → Except S.Err (S.Reply c) → Prop) : Prop where
  env : ∀ {e : H.Ev} {w w' : H.World}, I w → H.env e w = some w' → I w'
  enter : ∀ {k : K} {w : H.World}, I w → I (H.enter k w)
  answer : ∀ {k : K} {c : S.Call} {o : H.Outcome} {r : Except S.Err (S.Reply c)} {w w' : H.World},
    own k c → I w → H.answer k c o w = some (r, w') → I w' ∧ sound k c r

omit [DecidableEq K] in
theorem Keeps.upTo (hI : Keeps H I own sound) : KeepsUpTo H (fun _ => True) I own sound where
  before_env _ _ := trivial
  before_enter _ := trivial
  before_answer _ _ := trivial
  env _ hw he := hI.env hw he
  enter hw := hI.enter hw
  answer _ hc hw hans := hI.answer hc hw hans

theorem Reaches.within (h : Reaches T main s₀ s) (hI : Keeps H I own sound)
    (hmain : ∀ k, (main k).Within (own k) (sound k) Q) (h₀ : I s₀.world)
    (hidle : ∀ k, s₀.running k = none) :
    I s.world ∧ ∀ k m, s.running k = some m → m.Within (own k) (sound k) Q :=
  h.within_upTo hI.upTo hmain h₀ hidle trivial

/-! ## One of many -/

variable {M : Service S} {U : Interleave.Terms M} {k : K} {R : H.World → M.World → Prop}

/-- `R` relates the world of all to that of the key `k` by itself: what is not
of `k` is not seen, and what is of `k` goes the same way. -/
structure Alone (T : Terms H) (U : Interleave.Terms M) (I : H.World → Prop)
    (own : K → S.Call → Prop) (k : K) (R : H.World → M.World → Prop) : Prop where
  env : ∀ {e : H.Ev} {w w' : H.World} {u : M.World}, I w → R w u → T.env e w = true →
    H.env e w = some w' →
      R w' u ∨ ∃ e' u', U.env e' u = true ∧ M.env e' u = some u' ∧ R w' u'
  enter : ∀ {w : H.World} {u : M.World}, R w u → R (H.enter k w) (M.enter u)
  enter_of_ne : ∀ {j : K} {w : H.World} {u : M.World}, j ≠ k → R w u → R (H.enter j w) u
  answer : ∀ {c : S.Call} {o : H.Outcome} {r : Except S.Err (S.Reply c)} {w w' : H.World}
    {u : M.World}, own k c → I w → R w u → T.call k c o w = true →
      H.answer k c o w = some (r, w') →
      ∃ o' u', U.call c o' u = true ∧ M.answer c o' u = some (r, u') ∧ R w' u'
  answer_of_ne : ∀ {j : K} {c : S.Call} {o : H.Outcome} {r : Except S.Err (S.Reply c)}
    {w w' : H.World} {u : M.World}, j ≠ k → own j c → I w → R w u →
      H.answer j c o w = some (r, w') → R w' u

/-- Every run of all is, for each key, a run of its program alone. -/
theorem Alone.reaches (ha : Alone T U I own k R) (hI : Keeps H I own sound)
    (hmain : ∀ k, (main k).Within (own k) (sound k) Q) {w₀ : H.World} {u₀ : M.World}
    (h₀ : I w₀) (hR : R w₀ u₀) (h : Reaches T main (.idle w₀) s) :
    ∃ u, Interleave.Reaches U (main k) ⟨u₀, none⟩ ⟨u, s.running k⟩ ∧ R s.world u := by
  induction h with
  | refl => exact ⟨u₀, .refl, hR⟩
  | @step s t e hs ok ht ih =>
    obtain ⟨u, hu, hRu⟩ := ih
    obtain ⟨hw, hrun⟩ := hs.within hI hmain h₀ fun _ => rfl
    cases e with
    | env e =>
      obtain ⟨hw', ht⟩ := step_env ht
      rw [ht]
      obtain hR' | ⟨e', u', ok', hu', hR'⟩ := ha.env hw hRu ok hw'
      · exact ⟨u, hu, hR'⟩
      · exact ⟨u', .step (.env e') hu ok' (Option.map_eq_some_iff.mpr ⟨u', hu', rfl⟩), hR'⟩
    | start j =>
      obtain ⟨hj, hw', ht⟩ := step_start ht
      rw [ht, hw']
      by_cases hjk : j = k
      · subst hjk
        rw [hj] at hu
        rw [Function.update_self]
        exact ⟨_, hu.started, ha.enter hRu⟩
      · rw [Function.update_of_ne (Ne.symm hjk)]
        exact ⟨u, hu, ha.enter_of_ne hjk hRu⟩
    | call j o =>
      obtain ⟨c, f, r, hj, hans, ht⟩ := step_call ht
      simp only [Terms.allow, hj] at ok
      have hown := (hrun j _ hj).1
      rw [ht]
      by_cases hjk : j = k
      · subst hjk
        rw [hj] at hu
        rw [Function.update_self]
        obtain ⟨o', u', ok', hans', hR'⟩ := ha.answer hown hw hRu ok hans
        exact ⟨u', .step (.call o') hu ok' (Option.map_eq_some_iff.mpr ⟨_, hans', rfl⟩), hR'⟩
      · rw [Function.update_of_ne (Ne.symm hjk)]
        exact ⟨u, hu, ha.answer_of_ne hjk hown hw hRu hans⟩
    | stop j =>
      obtain ⟨hw', ht⟩ := step_stop ht
      rw [ht, hw']
      by_cases hjk : j = k
      · subst hjk
        rw [Function.update_self]
        exact ⟨u, hu.stopped, hRu⟩
      · rw [Function.update_of_ne (Ne.symm hjk)]
        exact ⟨u, hu, hRu⟩

end
end Hub
end RedkeyOperator.Interleave
