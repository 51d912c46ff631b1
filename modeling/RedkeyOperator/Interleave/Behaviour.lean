import Mathlib.Data.Nat.Init
import Mathlib.Order.Nat
import Mathlib.Tactic.ByContra
import Mathlib.Tactic.Choose
import RedkeyOperator.Interleave.Exec

/-! # Infinite behaviours

A behaviour takes events for ever. What holds of every reachable state holds
along it; that something happens at last needs two more things: a measure that
never rises, and an event that lowers it and is not put off for ever. -/
namespace RedkeyOperator.Interleave

variable {S : Signature} {M : Service S} {α : Type} {T U : Terms M} {main : Prog S α}
  {s₀ : State M α}

structure Behaviour (T : Terms M) (main : Prog S α) (s₀ : State M α) where
  state : Nat → State M α
  event : Nat → Event M
  init : state 0 = s₀
  allowed : ∀ n, T.allow (event n) (state n) = true
  steps : ∀ n, step main (event n) (state n) = some (state (n + 1))

theorem Terms.Implies.allow (h : T.Implies U) {e : Event M} {s : State M α}
    (ok : T.allow e s = true) : U.allow e s = true := by
  cases e with
  | env e => exact h.env e s.world ok
  | start => rfl
  | stop => rfl
  | call o =>
    simp only [Terms.allow] at ok ⊢
    split
    · rename_i c k hs
      rw [hs] at ok
      exact h.call c o s.world ok
    · rfl

theorem Reaches.trans {s t : State M α} (h : Reaches T main s₀ s) (hUT : U.Implies T)
    (h' : Reaches U main s t) : Reaches T main s₀ t := by
  induction h' with
  | refl => exact h
  | step e _ ok ht ih => exact .step e ih (hUT.allow ok) ht

/-! ## States of a behaviour -/

/-- After its last call a program only waits to be stopped. -/
theorem Reaches.after_ret {w : M.World} {a : α} {t : State M α}
    (h : Reaches T main ⟨w, some (.ret a)⟩ t) :
    ∃ running, Reaches T main ⟨w, none⟩ ⟨t.world, running⟩ ∧
      (t.running = running ∨ t.running = some (.ret a) ∧ running = none) := by
  induction h with
  | refl => exact ⟨none, .refl, .inr ⟨rfl, rfl⟩⟩
  | @step s t e hs ok ht ih =>
    obtain ⟨running, hr, rfl | ⟨hret, rfl⟩⟩ := ih
    · exact ⟨t.running, .step e hr ok ht, .inl rfl⟩
    · obtain ⟨v, q⟩ := s
      cases hret
      cases e with
      | env e =>
        obtain ⟨v', hv, rfl⟩ := Option.map_eq_some_iff.mp ht
        refine ⟨none, .step (.env e) hr ok ?_, .inr ⟨rfl, rfl⟩⟩
        exact Option.map_eq_some_iff.mpr ⟨v', hv, rfl⟩
      | start => cases ht
      | call o => cases ht
      | stop => cases ht; exact ⟨none, hr, .inl rfl⟩

namespace Behaviour
variable (b : Behaviour T main s₀)

/-- From `m` on the behaviour keeps to stricter terms. -/
def KeepsTo (U : Terms M) (m : Nat) : Prop := ∀ n, m ≤ n → U.allow (b.event n) (b.state n) = true

variable {b}

theorem reaches_from {m : Nat} (h : b.KeepsTo U m) {n : Nat} (hn : m ≤ n) :
    Reaches U main (b.state m) (b.state n) := by
  induction n, hn using Nat.le_induction with
  | base => exact .refl
  | succ n hn ih => exact .step _ ih (h n hn) (b.steps n)

/-- A behaviour goes on from where a run has led. -/
theorem reaches {s : State M α} (hs : Reaches T main s s₀) (b : Behaviour T main s₀) (n : Nat) :
    Reaches T main s (b.state n) := by
  induction n with
  | zero =>
    rw [b.init]
    exact hs
  | succ n ih => exact .step _ ih (b.allowed n) (b.steps n)

/-- A behaviour under stricter terms. -/
def weaken (h : T.Implies U) (b : Behaviour T main s₀) : Behaviour U main s₀ where
  state := b.state
  event := b.event
  init := b.init
  allowed n := h.allow (b.allowed n)
  steps := b.steps

/-- Again and again a program is started and returns. -/
def Returns (b : Behaviour T main s₀) : Prop :=
  ∀ n, ∃ m k a, n ≤ m ∧ m ≤ k ∧ (b.state m).running = none ∧ (b.state k).running = some (.ret a)

/-! ## Programs that are run to their end -/

/-- Between `m` and `k` a program is started and run to its end, with nothing
happening in between and every call under `U`. -/
structure Completes (b : Behaviour T main s₀) (U : Terms M) (m k : Nat) (a : α) : Prop where
  lt : m < k
  start : b.event m = .start
  calls : ∀ j, m < j → j < k → ∃ o, b.event j = .call o ∧ U.allow (.call o) (b.state j) = true
  returned : (b.state k).running = some (.ret a)

/-- The rest of a program that is run to its end. -/
theorem exec_of_calls {j k : Nat} (hjk : j ≤ k) {a : α} {w : M.World} {m : Prog S α}
    (hj : b.state j = ⟨w, some m⟩)
    (hc : ∀ i, j ≤ i → i < k → ∃ o, b.event i = .call o ∧ U.allow (.call o) (b.state i) = true)
    (hk : (b.state k).running = some (.ret a)) : Exec U m w (.ok a) (b.state k).world := by
  induction hjk using Nat.decreasingInduction generalizing w m with
  | self =>
    rw [hj] at hk
    cases hk
    rw [hj]
    exact .ret
  | of_succ i hi ih =>
    obtain ⟨o, he, ok⟩ := hc i le_rfl hi
    have hs := b.steps i
    rw [he, hj] at hs
    rw [hj] at ok
    cases m with
    | ret a => cases hs
    | fail e => cases hs
    | call c f =>
      obtain ⟨⟨r, v⟩, hw, hv⟩ := Option.map_eq_some_iff.mp hs
      exact .call o r ok hw (ih hv.symm (fun l hl => hc l (by omega)))

theorem Completes.exec {m k : Nat} {a : α} (h : b.Completes U m k a) :
    (b.state m).running = none ∧
      Exec U main (M.enter (b.state m).world) (.ok a) (b.state k).world := by
  have hs := b.steps m
  rw [h.start] at hs
  obtain ⟨w, q, hm⟩ : ∃ w q, b.state m = ⟨w, q⟩ := ⟨_, _, rfl⟩
  rw [hm] at hs
  cases q with
  | some q => cases hs
  | none =>
    rw [hm]
    exact ⟨rfl, exec_of_calls h.lt (Option.some.inj hs).symm (fun i hi => h.calls i hi) h.returned⟩

/-! ## What happens at last -/

/-- A measure that never rises, and falls again and again unless `P`, leads to `P`. -/
theorem exists_of_measure {f : Nat → Nat} {P : Nat → Prop} {n : Nat}
    (hle : ∀ i, n ≤ i → f (i + 1) ≤ f i)
    (hlt : ∀ i, n ≤ i → (∀ j, i ≤ j → ¬ P j) → ∃ j, i ≤ j ∧ f (j + 1) < f j) :
    ∃ i, n ≤ i ∧ P i := by
  induction hv : f n using Nat.strong_induction_on generalizing n with
  | _ v ih =>
    by_contra hno
    have hnot : ∀ j, n ≤ j → ¬ P j := fun j hj hp => hno ⟨j, hj, hp⟩
    obtain ⟨j, hj, hfall⟩ := hlt n le_rfl hnot
    have hdown : f j ≤ f n := by
      clear hfall
      induction j, hj using Nat.le_induction with
      | base => exact le_rfl
      | succ j hj ihj => exact (hle j hj).trans ihj
    obtain ⟨i, hi, hp⟩ := ih (f (j + 1)) (by omega) (n := j + 1) (fun i hi => hle i (by omega))
      (fun i hi => hlt i (by omega)) rfl
    exact hno ⟨i, by omega, hp⟩

/-! ## Behaviours by a schedule

A schedule picks what happens next by the state alone. -/

/-- A schedule that can be followed for ever from the states `P` holds of gives a behaviour. -/
theorem exists_of_schedule {P : State M α → Prop} (pick : State M α → Event M) (h₀ : P s₀)
    (h : ∀ s, P s → T.allow (pick s) s = true ∧ ∃ t, step main (pick s) s = some t ∧ P t) :
    ∃ b : Behaviour T main s₀, ∀ n, P (b.state n) ∧ b.event n = pick (b.state n) := by
  choose ok next hnext hkeep using h
  let state : Nat → { s // P s } := fun n =>
    Nat.rec ⟨s₀, h₀⟩ (fun _ s => ⟨next s.1 s.2, hkeep s.1 s.2⟩) n
  exact ⟨⟨fun n => (state n).1, fun n => pick (state n).1, rfl, fun n => ok _ (state n).2,
    fun n => hnext _ (state n).2⟩, fun n => ⟨(state n).2, rfl⟩⟩

/-- One event before a behaviour. -/
def cons {s : State M α} (e : Event M) (ok : T.allow e s₀ = true) (hs : step main e s₀ = some s)
    (b : Behaviour T main s) : Behaviour T main s₀ where
  state := fun n => Nat.casesOn n s₀ b.state
  event := fun n => Nat.casesOn n e b.event
  init := rfl
  allowed n := by
    cases n with
    | zero => exact ok
    | succ n => exact b.allowed n
  steps n := by
    cases n with
    | zero => exact hs.trans (congrArg some b.init.symm)
    | succ n => exact b.steps n

/-- A finite run before a behaviour. -/
theorem exists_append {s : State M α} (h : Reaches T main s₀ s) (b : Behaviour T main s) :
    ∃ (b' : Behaviour T main s₀) (N : Nat),
      ∀ n, b'.state (N + n) = b.state n ∧ b'.event (N + n) = b.event n := by
  induction h with
  | refl => exact ⟨b, 0, fun n => by rw [Nat.zero_add]; exact ⟨rfl, rfl⟩⟩
  | step e hs ok ht ih =>
    obtain ⟨b', N, hb⟩ := ih (b.cons e ok ht)
    refine ⟨b', N + 1, fun n => ?_⟩
    rw [Nat.add_right_comm]
    exact hb (n + 1)

theorem Returns.of_tail {s : State M α} {b : Behaviour T main s₀} {b' : Behaviour U main s} {N : Nat}
    (h : ∀ n, b'.state (N + n) = b.state n) (hb : b.Returns) : b'.Returns := by
  intro n
  obtain ⟨m, k, a, hm, hk, hidle, hret⟩ := hb n
  refine ⟨N + m, N + k, a, by omega, by omega, ?_, ?_⟩
  · rw [h]
    exact hidle
  · rw [h]
    exact hret

/-- The calls of a running program are answered under `U`, and it is stopped at its end. -/
structure Serves (U : Terms M) (pick : State M α → Event M) : Prop where
  call : ∀ w c k, ∃ o, pick ⟨w, some (.call c k)⟩ = .call o ∧ U.call c o w = true
  ret : ∀ w a, pick ⟨w, some (.ret a)⟩ = .stop
  fail : ∀ w e, pick ⟨w, some (.fail e)⟩ = .stop

section Serves
variable {pick : State M α → Event M} {n : Nat} {w : M.World}

theorem exists_idle_of (hs : Serves U pick) (hb : ∀ n, b.event n = pick (b.state n))
    {m : Prog S α} (hn : b.state n = ⟨w, some m⟩) :
    ∃ k, n ≤ k ∧ (b.state k).running = none := by
  have hstep := b.steps n
  rw [hb, hn] at hstep
  induction m generalizing n w with
  | ret a =>
    rw [hs.ret] at hstep
    exact ⟨n + 1, Nat.le_succ n, by rw [← Option.some.inj hstep]⟩
  | fail e =>
    rw [hs.fail] at hstep
    exact ⟨n + 1, Nat.le_succ n, by rw [← Option.some.inj hstep]⟩
  | call c f ih =>
    obtain ⟨o, ho, -⟩ := hs.call w c f
    rw [ho] at hstep
    obtain ⟨⟨r, v⟩, -, hv⟩ := Option.map_eq_some_iff.mp hstep
    have hnext := b.steps (n + 1)
    rw [hb, ← hv] at hnext
    obtain ⟨k, hk, hidle⟩ := ih r hv.symm hnext
    exact ⟨k, by omega, hidle⟩

/-- A program that is served comes to its end. -/
theorem exists_idle (hs : Serves U pick) (hb : ∀ n, b.event n = pick (b.state n)) (n : Nat) :
    ∃ k, n ≤ k ∧ (b.state k).running = none := by
  obtain ⟨w, q, hn⟩ : ∃ w q, b.state n = ⟨w, q⟩ := ⟨_, _, rfl⟩
  cases q with
  | none => exact ⟨n, le_rfl, by rw [hn]⟩
  | some m => exact exists_idle_of hs hb hn

theorem exists_ret_of (hs : Serves U pick) (hb : ∀ n, b.event n = pick (b.state n))
    {m : Prog S α} (hn : b.state n = ⟨w, some m⟩) (ha : Always U m w fun _ _ => True) :
    ∃ k a, n ≤ k ∧ (b.state k).running = some (.ret a) ∧ ∀ j, n ≤ j → j < k →
      ∃ o, b.event j = .call o ∧ U.allow (.call o) (b.state j) = true := by
  induction m generalizing n w with
  | ret a => exact ⟨n, a, le_rfl, by rw [hn], fun j hj hlt => by omega⟩
  | fail e =>
    obtain ⟨a, ha, -⟩ := ha _ _ .fail
    cases ha
  | call c f ih =>
    obtain ⟨o, ho, ok⟩ := hs.call w c f
    have hstep := b.steps n
    rw [hb, hn, ho] at hstep
    obtain ⟨⟨r, v⟩, hr, hv⟩ := Option.map_eq_some_iff.mp hstep
    obtain ⟨k, a, hk, hret, hcalls⟩ :=
      ih r hv.symm (fun res v' hx => ha res v' (.call o r ok hr hx))
    refine ⟨k, a, by omega, hret, fun j hj hlt => ?_⟩
    rcases Nat.eq_or_lt_of_le hj with rfl | hj
    · exact ⟨o, by rw [hb, hn, ho], by rw [hn]; exact ok⟩
    · exact hcalls j hj hlt

/-- A program that always returns under `U` is run to its end. -/
theorem exists_completes (hs : Serves U pick) (hb : ∀ n, b.event n = pick (b.state n))
    (hn : b.state n = ⟨w, none⟩) (hp : pick ⟨w, none⟩ = .start)
    (ha : Always U main (M.enter w) fun _ _ => True) : ∃ k a, b.Completes U n k a := by
  have hstart : b.event n = .start := by rw [hb, hn, hp]
  have hstep := b.steps n
  rw [hstart, hn] at hstep
  obtain ⟨k, a, hk, hret, hcalls⟩ := exists_ret_of hs hb (Option.some.inj hstep).symm ha
  exact ⟨k, a, ⟨hk, hstart, fun j hj => hcalls j hj, hret⟩⟩

end Serves
end Behaviour
end RedkeyOperator.Interleave
