import RedkeyOperator.Controller.Undisturbed
import RedkeyOperator.Interleave.Behaviour
import RedkeyOperator.Protocol.Leftovers
import RedkeyOperator.Protocol.Progress

/-! # Behaviours of the operator and Robin

What is assumed of an infinite run so that it gets somewhere: the user leaves the
spec alone, Robin goes on with its work, and Reconciles come to their end. A
schedule that serves both in turn shows that every finite run can go on so. -/
namespace RedkeyOperator.Protocol
open RedkeyOperator.Api RedkeyOperator.Kube RedkeyOperator.Interleave RedkeyOperator.Controller

variable {T U : Terms server} {req : NamespacedName} {w₀ w w' v : World} {p q : Point}
  {r : RedkeyReconciler} {s s₀ t : State server Result} {c : RedkeyConfig}

theorem work_robin {key : NamespacedName} {s : RedkeyConfigStatus}
    (hk : (w.store.configs.map RedkeyConfig.key).Nodup) (hc : w.store.config key = some c)
    (hw : env (.robin key s) w = some w') :
    work w'.store.configs + remaining c.phase = work w.store.configs + remaining s.configPhase := by
  obtain ⟨d, -, rfl⟩ := env_robin hw
  exact work_setConfigStatus hk hc

/-- Nobody but the operator gives Robin more work. -/
theorem work_env {e : Ev} (hp : Provenance req w) (hv : Versions req w)
    (ok : protocol.env e w = true) (hw : env e w = some w') :
    work w'.store.configs ≤ work w.store.configs := by
  cases e with
  | update key spec =>
    obtain ⟨rk, -, -, rfl⟩ := env_update hw
    exact le_rfl
  | robin key s =>
    obtain ⟨c, hc, -⟩ := env_robin hw
    have hwork := work_robin (hp.keys _ w.store_mem_history) hc hw
    have hle := (robinMay_remaining (robinMay_of_protocol ok hc)).1
    omega
  | collect key => exact absurd hw (hp.not_collected hv)

/-! ## Assumptions -/

section Assumptions
variable (b : Behaviour T (reconcile r req) s₀)

/-- From `N` on the user leaves the spec alone. -/
def SpecKept (N : Nat) : Prop := ∀ n, N ≤ n → ∀ spec, b.event n ≠ .env (.update req spec)

/-- Robin moves a config on. -/
def RobinMoves (n : Nat) : Prop :=
  ∃ key status c, b.event n = .env (.robin key status) ∧
    (b.state n).world.store.config key = some c ∧ remaining status.configPhase < remaining c.phase

/-- Robin does not leave configs unfinished for ever without moving one on. -/
def RobinIsFair : Prop :=
  ∀ n, (∀ m, n ≤ m → ∃ c ∈ (b.state m).world.store.configs, finished c = false) →
    ∃ m, n ≤ m ∧ RobinMoves b m

/-- Again and again a Reconcile runs to its end undisturbed, with every call carried
out and every read current. -/
def OperatorIsFair : Prop := ∀ n, ∃ m k a, n ≤ m ∧ b.Completes flawless m k a

variable {b}

theorem OperatorIsFair.returns (h : OperatorIsFair b) : b.Returns := by
  intro n
  obtain ⟨m, k, a, hm, hc⟩ := h n
  exact ⟨m, k, a, hm, hc.lt.le, hc.exec.1, hc.returned⟩

theorem RobinIsFair.of_tail {b' : Behaviour U (reconcile r req) s} {N : Nat}
    (h : ∀ n, b'.state (N + n) = b.state n ∧ b'.event (N + n) = b.event n) (hb : RobinIsFair b) :
    RobinIsFair b' := by
  intro n hu
  obtain ⟨m, hm, key, status, c, he, hc, hlt⟩ := hb n fun m hm => by
    rw [← (h m).1]
    exact hu (N + m) (by omega)
  refine ⟨N + m, by omega, key, status, c, (h m).2.trans he, ?_, hlt⟩
  rw [(h m).1]
  exact hc

theorem specKept_of_keepsTo {N : Nat} (h : b.KeepsTo (specUnchanged req) N) : SpecKept b N := by
  intro n hn spec he
  have ok := h n hn
  rw [he] at ok
  simp [Terms.allow, specUnchanged] at ok

end Assumptions

/-! ## What holds along a behaviour -/

section Along
variable {b : Behaviour T (reconcile r req) s₀}

/-- A later state, from one at which no Reconcile is under way. -/
theorem runs_from {m n : Nat} (hk : b.KeepsTo U m) (hmn : m ≤ n)
    (hm : (b.state m).running = none ∨ ∃ a, (b.state m).running = some (.ret a)) :
    ∃ p, Runs U req (b.state m).world p (b.state n).world := by
  have h := Behaviour.reaches_from hk hmn
  obtain ⟨w, running, hw⟩ : ∃ w running, b.state m = ⟨w, running⟩ := ⟨_, _, rfl⟩
  rw [hw] at h hm ⊢
  obtain hm | ⟨a, hm⟩ := hm
  · cases hm
    exact reconcile_runs h
  · cases hm
    obtain ⟨running, hr, -⟩ := h.after_ret
    obtain ⟨p, hp⟩ := reconcile_runs hr
    exact ⟨p, hp⟩

variable (h₀ : Reaches T (reconcile r req) ⟨w₀, none⟩ s₀)
include h₀

theorem runs_idle (b : Behaviour T (reconcile r req) s₀) (n : Nat) :
    Runs T req w₀ .idle (b.state n).world := by
  obtain ⟨p, hp⟩ := reconcile_runs (b.reaches h₀ n)
  exact hp.silent .quit

variable (hf : Fresh req w₀)
include hf

theorem keepsTo_of_specKept {N : Nat} (h : SpecKept b N) :
    b.KeepsTo (T.and (specUnchanged req)) N := by
  intro n hn
  have ok := b.allowed n
  have hs := b.steps n
  have hp := runs_idle h₀ b n
  cases he : b.event n with
  | env ev =>
    rw [he] at ok hs
    obtain ⟨v, hv, -⟩ := Option.map_eq_some_iff.mp hs
    have hspec : (specUnchanged req).env ev (b.state n).world = true := by
      cases ev with
      | update key spec =>
        have hne : key ≠ req := by
          rintro rfl
          exact h n hn spec he
        simpa [specUnchanged] using hne
      | robin key status => rfl
      | collect key => exact absurd hv ((hp.provenance hf).not_collected (hp.versions hf.versions))
    have ok : T.env ev (b.state n).world = true := ok
    simp [Terms.allow, Terms.and, ok, hspec]
  | start => rfl
  | stop => rfl
  | call o =>
    rw [he] at ok
    simp only [Terms.allow] at ok ⊢
    split
    · rename_i hrun
      rw [hrun] at ok
      simpa [Terms.and, specUnchanged] using ok
    · rfl

/-- Only the user changes the spec. -/
theorem spec_kept {N : Nat} (hk : SpecKept b N) {n : Nat} (hn : N ≤ n) :
    ∀ rk, (b.state n).world.store.redkeys req = some rk →
      ∃ rk₀, (b.state N).world.store.redkeys req = some rk₀ ∧ rk.spec = rk₀.spec := by
  induction n, hn using Nat.le_induction with
  | base => exact fun rk hrk => ⟨rk, hrk, rfl⟩
  | succ n hn ih =>
    intro rk hrk
    obtain ⟨p, hp, ⟨ev, hev, -, hw⟩ | hw | hw | hw⟩ :=
      reconcile_step (b.reaches h₀ n) (b.allowed n) (b.steps n)
    · have hv := hp.versions hf.versions
      cases ev with
      | update key spec =>
        obtain ⟨rk₀, hrk₀, -, hw⟩ := env_update hw
        rw [hw] at hrk
        obtain ⟨-, hreq⟩ | hreq := hv.store_update hrk₀ (precedes_withSpec _ _) hrk
        · have hkey : key = req := (hv.keyed _ _ hrk₀).symm.trans (hv.keyed _ _ hreq)
          exact absurd (hkey ▸ hev) (hk n hn spec)
        · exact ih rk hreq
      | robin key status =>
        obtain ⟨c, -, hw⟩ := env_robin hw
        rw [hw] at hrk
        exact ih rk hrk
      | collect key => exact absurd hw ((hp.provenance hf).not_collected hv)
    · exact ih rk (hw ▸ hrk)
    · rw [hw] at hrk
      exact ih rk hrk
    · obtain ⟨rk₁, hrk₁, hsp⟩ := hw.spec (hp.versions hf.versions) hrk
      obtain ⟨rk₀, hrk₀, hsp₀⟩ := ih rk₁ hrk₁
      exact ⟨rk₀, hrk₀, hsp.trans hsp₀⟩

/-- Robin's work shrinks when it moves a config on. -/
theorem work_robinMoves {n : Nat} (h : RobinMoves b n) :
    work (b.state (n + 1)).world.store.configs < work (b.state n).world.store.configs := by
  obtain ⟨key, s, c, he, hc, hlt⟩ := h
  have hs := b.steps n
  rw [he] at hs
  obtain ⟨v, hv, hst⟩ := Option.map_eq_some_iff.mp hs
  have hkeys := ((runs_idle h₀ b n).provenance hf).keys _ (World.store_mem_history _)
  have hwork := work_robin hkeys hc hv
  rw [← hst]
  exact Nat.lt_of_add_lt_add_right (hwork ▸ Nat.add_lt_add_left hlt _)

/-- Robin's work is done at last if none is added. -/
theorem exists_work_done (hrobin : RobinIsFair b) {n : Nat}
    (hle : ∀ i, n ≤ i → work (b.state (i + 1)).world.store.configs ≤
      work (b.state i).world.store.configs) :
    ∃ m, n ≤ m ∧ ∀ i, m ≤ i → work (b.state i).world.store.configs = 0 := by
  obtain ⟨m, hm, hdone⟩ : ∃ m, n ≤ m ∧ work (b.state m).world.store.configs = 0 := by
    refine Behaviour.exists_of_measure (f := fun n => work (b.state n).world.store.configs)
      hle fun i hi hnot => ?_
    obtain ⟨j, hj, hmoves⟩ := hrobin i fun j hj => by
      by_contra hall
      push Not at hall
      exact hnot j hj (work_eq_zero.mpr fun c hc => by simpa using hall c hc)
    exact ⟨j, hj, work_robinMoves h₀ hf hmoves⟩
  refine ⟨m, hm, fun i hi => ?_⟩
  induction i, hi using Nat.le_induction with
  | base => exact hdone
  | succ i hi ih =>
    have := hle i (hm.trans hi)
    omega

end Along

/-! ## A fair schedule

While the operator is idle Robin makes all the moves it may make, and then the
operator is started again. -/

def fairly : State server Result → Event server
  | ⟨w, none⟩ => match robinsMove w.store.configs with
    | some (c, next) => .env (moveOn c next)
    | none => .start
  | ⟨_, some (.call _ _)⟩ => .call .ok
  | ⟨_, some _⟩ => .stop

theorem fairly_of_move {next : ConfigPhase} (h : robinsMove w.store.configs = some (c, next)) :
    fairly ⟨w, none⟩ = .env (moveOn c next) := by
  simp only [fairly, h]

theorem fairly_of_done (h : robinsMove w.store.configs = none) : fairly ⟨w, none⟩ = .start := by
  simp only [fairly, h]

theorem serves_fairly : Behaviour.Serves flawless fairly where
  call _ _ _ := ⟨.ok, rfl, rfl⟩
  ret _ _ := rfl
  fail _ _ := rfl

theorem fairly_ne_update (s : State server Result) (key : NamespacedName) (spec : RedkeySpec) :
    fairly s ≠ .env (.update key spec) := by
  obtain ⟨w, running⟩ := s
  cases running with
  | none =>
    cases h : robinsMove w.store.configs with
    | none =>
      rw [fairly_of_done h]
      simp
    | some x =>
      obtain ⟨c, next⟩ := x
      rw [fairly_of_move h]
      intro he
      cases he
  | some m => cases m <;> simp [fairly]

/-- The schedule keeps to the protocol and can be followed in every reachable state. -/
theorem fairly_step (hf : Fresh req w₀) (h : Reaches T (reconcile r req) ⟨w₀, none⟩ s) :
    protocol.allow (fairly s) s = true ∧ ∃ t, step (reconcile r req) (fairly s) s = some t := by
  obtain ⟨p, hp⟩ := reconcile_runs h
  obtain ⟨w, running⟩ := s
  cases running with
  | none =>
    cases hmove : robinsMove w.store.configs with
    | none =>
      rw [fairly_of_done hmove]
      exact ⟨rfl, _, rfl⟩
    | some x =>
      obtain ⟨c, next⟩ := x
      have hkeys := (hp.provenance hf).keys _ w.store_mem_history
      obtain ⟨-, ok, hv⟩ := env_moveOn hkeys hmove
      rw [fairly_of_move hmove]
      exact ⟨ok, _, Option.map_eq_some_iff.mpr ⟨_, hv, rfl⟩⟩
  | some m =>
    cases m with
    | ret a => exact ⟨rfl, _, rfl⟩
    | fail e => exact ⟨rfl, _, rfl⟩
    | call c k => cases c <;> exact ⟨rfl, _, rfl⟩

/-- A run can go on by the schedule, under terms that allow it. -/
theorem exists_fairly (hf : Fresh req w₀) (h₀ : Reaches T (reconcile r req) ⟨w₀, none⟩ s₀)
    (hU : U.Implies T)
    (hok : ∀ t, Reaches U (reconcile r req) s₀ t → U.allow (fairly t) t = true) :
    ∃ b : Behaviour U (reconcile r req) s₀, ∀ n, b.event n = fairly (b.state n) := by
  have hstep : ∀ t, (Reaches T (reconcile r req) ⟨w₀, none⟩ t ∧ Reaches U (reconcile r req) s₀ t) →
      U.allow (fairly t) t = true ∧ ∃ u, step (reconcile r req) (fairly t) t = some u ∧
        Reaches T (reconcile r req) ⟨w₀, none⟩ u ∧ Reaches U (reconcile r req) s₀ u := by
    intro t h
    obtain ⟨hT, hUt⟩ := h
    obtain ⟨-, u, hu⟩ := fairly_step hf hT
    have ok := hok t hUt
    exact ⟨ok, u, hu, .step _ hT (hU.allow ok) hu, .step _ hUt ok hu⟩
  obtain ⟨b, hb⟩ := Behaviour.exists_of_schedule fairly ⟨h₀, .refl⟩ hstep
  exact ⟨b, fun n => (hb n).2⟩

section Fairly
variable {b : Behaviour T (reconcile r req) s₀} {n : Nat}

theorem specKept_fairly (hb : ∀ n, b.event n = fairly (b.state n)) : SpecKept b 0 := by
  intro n _ spec he
  exact fairly_ne_update _ req spec ((hb n).symm.trans he)

variable (h₀ : Reaches T (reconcile r req) ⟨w₀, none⟩ s₀) (hf : Fresh req w₀)
include h₀ hf

/-- What Robin moves on while the operator is idle. -/
theorem robinMoves_fairly (hb : b.event n = fairly (b.state n))
    (hidle : (b.state n).running = none) {next : ConfigPhase}
    (hmove : robinsMove (b.state n).world.store.configs = some (c, next)) :
    RobinMoves b n ∧ (b.state (n + 1)).running = none := by
  have hkeys := ((runs_idle h₀ b n).provenance hf).keys _ (World.store_mem_history _)
  obtain ⟨hc, -, -⟩ := env_moveOn hkeys hmove
  obtain ⟨-, hm, hne, hq⟩ := robinsMove_eq_some hmove
  have hs := b.steps n
  obtain ⟨w, q, hn⟩ : ∃ w q, b.state n = ⟨w, q⟩ := ⟨_, _, rfl⟩
  rw [hn] at hidle hmove hb hs
  cases hidle
  rw [fairly_of_move hmove] at hb
  refine ⟨⟨_, _, c, hb, hc, (robinMay_remaining hm).2 hne hq⟩, ?_⟩
  rw [hb] at hs
  obtain ⟨v, -, hv⟩ := Option.map_eq_some_iff.mp hs
  rw [← hv]

/-- While the operator is idle Robin comes to have nothing more to do. -/
theorem exists_done (hb : ∀ n, b.event n = fairly (b.state n))
    (hidle : (b.state n).running = none) :
    ∃ m, n ≤ m ∧ (b.state m).running = none ∧
      robinsMove (b.state m).world.store.configs = none := by
  induction hv : work (b.state n).world.store.configs using Nat.strong_induction_on
    generalizing n with
  | _ v ih =>
    cases hmove : robinsMove (b.state n).world.store.configs with
    | none => exact ⟨n, le_rfl, hidle, hmove⟩
    | some x =>
      obtain ⟨c, next⟩ := x
      obtain ⟨hm, hidle'⟩ := robinMoves_fairly h₀ hf (hb n) hidle hmove
      obtain ⟨m, hle, h⟩ := ih _ (hv ▸ work_robinMoves h₀ hf hm) hidle' rfl
      exact ⟨m, by omega, h⟩

theorem robinIsFair_fairly (hT : T.Implies protocol)
    (hb : ∀ n, b.event n = fairly (b.state n)) : RobinIsFair b := by
  intro n hu
  obtain ⟨m, hm, hidle⟩ := Behaviour.exists_idle serves_fairly hb n
  have hr : Runs protocol req w₀ .idle (b.state m).world := (runs_idle h₀ b m).weaken hT
  obtain ⟨c, next, hmove⟩ := robinsMove_isSome (hr.orderly hf).1.ascending (hu m hm)
  exact ⟨m, hm, (robinMoves_fairly h₀ hf (hb m) hidle hmove).1⟩

theorem operatorIsFair_fairly (hb : ∀ n, b.event n = fairly (b.state n)) : OperatorIsFair b := by
  intro n
  obtain ⟨i, hi, hidle⟩ := Behaviour.exists_idle serves_fairly hb n
  obtain ⟨m, hm, hidle, hdone⟩ := exists_done h₀ hf hb hidle
  have hv := (runs_idle h₀ b m).versions hf.versions
  obtain ⟨rk, hrk, -⟩ := hv.current
  have hkey := hv.keyed _ _ hrk
  subst hkey
  obtain ⟨w, q, hn⟩ : ∃ w q, b.state m = ⟨w, q⟩ := ⟨_, _, rfl⟩
  rw [hn] at hidle hdone hrk
  cases hidle
  obtain ⟨k, a, hc⟩ := Behaviour.exists_completes serves_fairly hb hn (fairly_of_done hdone)
    (reconcile_returns r hrk)
  exact ⟨m, k, a, hi.trans hm, hc⟩

end Fairly
end RedkeyOperator.Protocol
