import RedkeyOperator.Protocol.Fairness
import RedkeyOperator.Protocol.Resume

/-! # A running cluster converges

Two undisturbed Reconciles and Robin's work in between bring a cluster to what
its spec asks for: the first one creates the config of the current generation,
after which nothing is added to Robin's work, and one that comes after Robin is
done prunes all other configs and reports the result. Failures, crashes and stale
reads of the Redkey in between do not matter. -/
namespace RedkeyOperator.Protocol
open RedkeyOperator.Api RedkeyOperator.Kube RedkeyOperator.Interleave RedkeyOperator.Controller

variable {T : Terms server} {req : NamespacedName} {w₀ w w' v : World} {p q : Point}
  {r : RedkeyReconciler} {s t : State server Result} {cluster cur latest : Redkey}
  {configs : List RedkeyConfig} {c active : RedkeyConfig}

/-! ## What is reached -/

/-- `cur` is stored with one config, which is made from its spec and Applied, and
its status says so. -/
structure Converged (cur : Redkey) (c : RedkeyConfig) (st : Store) : Prop where
  stored : st.redkeys cur.key = some cur
  running : 0 < cur.spec.primaries
  only : st.configs = [c]
  made : MadeFrom cur c
  applied : c.phase = .applied
  observed : cur.status.observedGeneration = cur.generation
  phase : cur.status.phase = .ready ∨ cur.status.phase = .error
  replicas : cur.status.replicas = cur.spec.primaries

/-- The cluster of the request is as its spec asks for. -/
def HasConverged (req : NamespacedName) (w : World) : Prop :=
  ∃ cur c, cur.key = req ∧ Converged cur c w.store

theorem aggregatedStatus_phase (now : Time) (latest : Redkey) (g : Nat)
    (ha : active.phase = .applied) : (aggregatedStatus now latest active g).phase = .ready ∨
      (aggregatedStatus now latest active g).phase = .error := by
  have h : (aggregatedStatus now latest active g).phase = configsPhase active :=
    StatusWrite.phase_apply (.aggregate latest active g) now latest.status
  rw [h, configsPhase, if_neg (by simp [isTerminalConfigPhase, ha])]
  split
  · exact .inr rfl
  · exact .inl rfl

/-- The status aggregated from the only config. -/
theorem converged_of_written (hst : w.store.redkeys cur.key = some cur)
    (hpos : 0 < cur.spec.primaries) (ho : w.store.configs = [c]) (hm : MadeFrom cur c)
    (hp : c.phase = .applied) (hw : Written [c] cur) : Converged cur c w.store := by
  obtain ⟨latest, active, now, ha, rfl⟩ := hw
  cases ha
  exact ⟨hst, hpos, ho, hm, hp, rfl, aggregatedStatus_phase now latest _ hp, rfl⟩

/-! ## An undisturbed Reconcile -/

theorem freshList_eq_configs (hr : Reached req w) (ho : Orderly w) (hk : cur.key = req) :
    freshList cur w.store = w.store.configs := by
  rw [freshList, hr.configsOf hk]
  exact sortBySequence_eq (.refl _) ho.ascending

/-- What an undisturbed Reconcile of a cluster with primaries leaves. -/
theorem left_by_reconcile {a : Result} (h₀ : Reached req w) (hrk : w.store.redkeys req = some cur)
    (hpos : 0 < cur.spec.primaries)
    (hx : Exec flawless (reconcile r req) (enter w) (.ok a) v) :
    ∃ cur', cur'.key = req ∧ v.store.redkeys req = some cur' ∧ 0 < cur'.spec.primaries ∧
      freshList cur' v.store = target cur (freshList cur w.store) ∧
      Written (target cur (freshList cur w.store)) cur' := by
  have hkey : cur.key = req := h₀.versions.keyed _ _ hrk
  have hl : Live timeless _ _ req .idle w := ⟨cur, hkey, plan_of_store (hkey ▸ hrk) hpos.ne'⟩
  obtain ⟨-, cur', hk, ht, hw, -⟩ := settled_of_returned h₀ hl (reaches_of_exec flawless_calm .refl hx)
  exact ⟨cur', hk, hk ▸ ht.stored, Nat.pos_of_ne_zero ht.running, ht.fresh, hw⟩

theorem Written.observed (h : Written configs cur) :
    cur.status.observedGeneration = cur.generation := by
  obtain ⟨latest, active, now, -, rfl⟩ := h
  rfl

/-- After an undisturbed Reconcile the config asked for is there. -/
theorem asked_of_reconcile {a : Result} (hr : Runs protocol req w₀ .idle w) (hf : Fresh req w₀)
    (hv : Runs protocol req w₀ p v) (hrk : w.store.redkeys req = some cur)
    (hpos : 0 < cur.spec.primaries)
    (hx : Exec flawless (reconcile r req) (enter w) (.ok a) v) : Asked req v := by
  have h₀ : Reached req w := ⟨w₀, hf, hr.weaken implies_any⟩
  obtain ⟨cur', -, hcur', hpos', -, hw⟩ := left_by_reconcile h₀ hrk hpos hx
  exact ⟨cur', hcur', hpos', hv.observedCreated hf hcur' hpos' hw.observed⟩

theorem drop_lastAppliedIndex_eq (hl : configs.getLast? = some c) (hp : c.phase = .applied) :
    configs.drop (lastAppliedIndex configs) = [c] := by
  obtain ⟨front, rfl⟩ := List.getLast?_eq_some_iff.mp hl
  rw [lastAppliedIndex_append hp (by simp) front, List.drop_left]

/-- A config made for the generation is not made again. -/
theorem needsNewConfig_of_made (h : MadeFrom cur c) (hg : cur.generation < 2 ^ 63) :
    needsNewConfig cur (some c) = false := by
  simp [needsNewConfig, h.annotated hg]

theorem target_of_made (hl : configs.getLast? = some c) (hm : MadeFrom cur c)
    (hg : cur.generation < 2 ^ 63) (hp : c.phase = .applied) : target cur configs = [c] := by
  have hne : configs.isEmpty = false := by
    cases configs with
    | nil => cases hl
    | cons => rfl
  have hadds : adds cur configs = false := by rw [adds, hne, hl, needsNewConfig_of_made hm hg]; rfl
  rw [target, planned_of_not_adds hadds, drop_lastAppliedIndex_eq hl hp]

/-- With the config asked for stored and Robin done, an undisturbed Reconcile converges. -/
theorem converged_of_reconcile {a : Result} (hr : Runs protocol req w₀ .idle w) (hf : Fresh req w₀)
    (hv : Runs protocol req w₀ p v) (ha : Asked req w) (hdone : work w.store.configs = 0)
    (hx : Exec flawless (reconcile r req) (enter w) (.ok a) v) : HasConverged req v := by
  have h₀ : Reached req w := ⟨w₀, hf, hr.weaken implies_any⟩
  have h₁ : Reached req v := ⟨w₀, hf, (hv.weaken implies_any).silent .quit⟩
  obtain ⟨cur, hcur, hpos, hc⟩ := ha
  obtain ⟨hkey, hg⟩ := h₀.versions.of_mem w.store_mem_history hcur
  obtain ⟨c, hlast, hm, hsup⟩ := hr.newest hf cur hcur hpos hc
  have happ : c.phase = .applied := by
    have hfin := work_eq_zero.mp hdone c (List.mem_of_getLast? hlast)
    simpa [finished, isTerminalConfigPhase, hsup] using hfin
  obtain ⟨cur', hk', hcur', hpos', hfresh, hw⟩ := left_by_reconcile h₀ hcur hpos hx
  rw [freshList_eq_configs h₁ (hv.orderly hf).1 hk', freshList_eq_configs h₀ (hr.orderly hf).1 hkey,
    target_of_made hlast hm hg happ] at hfresh
  rw [freshList_eq_configs h₀ (hr.orderly hf).1 hkey, target_of_made hlast hm hg happ] at hw
  -- the config that is left is the newest one of the Redkey as it is stored now
  obtain ⟨c', hlast', hm', -⟩ := hv.newest hf cur' hcur' hpos'
    (hv.observedCreated hf hcur' hpos' hw.observed)
  rw [hfresh] at hlast'
  cases hlast'
  exact ⟨cur', c, hk', converged_of_written (hk'.symm ▸ hcur') hpos' hfresh hm' happ hw⟩

/-! ## What is reached stays -/

/-- The configs a point holds. -/
def Point.held : Point → List RedkeyConfig
  | .listed _ configs | .aggregating _ configs | .refetched _ configs _ => configs
  | .pruning _ older kept => older ++ kept
  | _ => []

/-- The cluster has converged, and the configs a Reconcile has read are Applied. -/
structure Resting (req : NamespacedName) (p : Point) (w : World) : Prop where
  converged : HasConverged req w
  held : ∀ c ∈ p.held, c.phase = .applied

theorem HasConverged.asked (h : HasConverged req w) (hr : Runs protocol req w₀ p w)
    (hf : Fresh req w₀) : Asked req w := by
  obtain ⟨cur, c, rfl, hc⟩ := h
  exact ⟨cur, hc.stored, hc.running, hr.observedCreated hf hc.stored hc.running hc.observed⟩

theorem HasConverged.same (h : HasConverged req w) (hr : w'.store.redkeys = w.store.redkeys)
    (hc : w'.store.configs = w.store.configs) : HasConverged req w' := by
  obtain ⟨cur, c, hk, hcv⟩ := h
  exact ⟨cur, c, hk, ⟨by rw [hr]; exact hcv.stored, hcv.running, by rw [hc]; exact hcv.only,
    hcv.made, hcv.applied, hcv.observed, hcv.phase, hcv.replicas⟩⟩

/-- Robin may report more of a config that is Applied. -/
theorem HasConverged.robin {key : NamespacedName} {c : RedkeyConfig} {s : RedkeyConfigStatus}
    (h : HasConverged req w) (hc : w.store.config key = some c)
    (hm : robinMay w.store.configs c s.configPhase = true) :
    HasConverged req (w.commit (w.store.setConfigStatus key s) (moves c s)) := by
  obtain ⟨cur, d, hk, hcv⟩ := h
  obtain ⟨hmem, rfl⟩ := Store.config_mem hc
  rw [hcv.only, List.mem_singleton] at hmem
  subst hmem
  have hphase : s.configPhase = .applied :=
    (robinMay_finished hm (finished_of_applied hcv.applied)).trans hcv.applied
  refine ⟨cur, { c with status := s }, hk, ⟨hcv.stored, hcv.running, ?_, hcv.made.withStatus s,
    hphase, hcv.observed, hcv.phase, hcv.replicas⟩⟩
  simp [Store.setConfigStatus, hcv.only]

/-- A status that is written is aggregated from an Applied config. -/
theorem Resting.updated {rk : Redkey} (h : Resting req p w) (hr : Runs protocol req w₀ p w)
    (hf : Fresh req w₀) (hi : Issues req p (.write (.updateStatus rk)))
    (hc : w.store.redkeys rk.key = some cur) (hv : rk.resourceVersion = cur.resourceVersion) :
    HasConverged req (w.commit (w.store.setRedkey (cur.withStatus rk.status)) []) := by
  have hvs := hr.versions hf.versions
  have hs := hr.sourced hf.cursors
  obtain ⟨cur₀, c, hk, hcv⟩ := h.converged
  obtain ⟨hcur, ⟨cluster, configs, active, now, rfl, ha, rfl⟩ | ⟨now, rfl, rfl⟩⟩ :=
    hi.of_accepted hvs hs hc hv
  · obtain rfl := Option.some.inj ((hk ▸ hcv.stored).symm.trans hcur)
    obtain ⟨cur', hcur', -, hcr⟩ := h.converged.asked hr hf
    obtain rfl := Option.some.inj (hcur'.symm.trans hcur)
    obtain ⟨hg, -⟩ := (hr.leading hf.toNewborn).current hvs hs rfl hcur hcr
    have happ := h.held active (selectActiveConfig_mem ha)
    exact ⟨cur'.withStatus _, c, hk, ⟨redkeys_setRedkey_self _ _, hcv.running, hcv.only, hcv.made,
      hcv.applied, hg, aggregatedStatus_phase now cur' _ happ, rfl⟩⟩
  · obtain rfl := Option.some.inj ((hk ▸ hcv.stored).symm.trans hcur)
    have h0 : cur₀.spec.primaries = 0 := hs.2.1
    have := hcv.running
    omega

theorem Resting.effect (h : Resting req p w) (hr : Runs protocol req w₀ p w) (hf : Fresh req w₀)
    (he : Effect T req p w w') : HasConverged req w' := by
  cases he with
  | quiet hq => exact h.converged.same hq.redkeys hq.configs
  | sawRedkey => exact h.converged.same rfl rfl
  | sawConfigs => exact h.converged.same rfl rfl
  | updated hi ok hc hv => exact h.updated hr hf hi hc hv
  | created hi =>
    obtain ⟨cluster, configs, rfl, hc, rfl⟩ := hi.of_createConfig
    exact absurd hc ((h.converged.asked hr hf).not_creates hr hf)
  | deleted hi =>
    obtain ⟨cur, c, hk, hcv⟩ := h.converged
    have hs := hr.sourced hf.cursors
    obtain ⟨cluster, d, older, kept, rfl, rfl⟩ | ⟨cluster, d, items, rfl, rfl⟩ := hi.of_deleteConfig
    · -- one more config would be stored
      have hlen := (hr.orderly hf).2.2.length_eq
      have hne := List.length_pos_of_ne_nil hs.kept_ne_nil
      rw [hcv.only] at hlen
      simp only [List.length_append, List.length_cons, List.length_nil] at hlen
      omega
    · obtain ⟨cur', hcur', hpos', hcr⟩ := h.converged.asked hr hf
      obtain ⟨-, hsp, -⟩ :=
        (hr.leading hf.toNewborn).current (hr.versions hf.versions) hs rfl hcur' hcr
      have h0 : cluster.spec.primaries = 0 := hs.2.1
      rw [hsp] at h0
      omega

theorem Resting.next {c : Call} {o : Outcome} {res : Except ApiError (Reply c)}
    (h : Resting req p w) (hr : Runs protocol req w₀ p w) (hf : Fresh req w₀)
    (hq : Next req p c res q) (ok : protocol.call c o w = true)
    (hw : answer c o w = some (res, w')) : ∀ c ∈ q.held, c.phase = .applied := by
  have hcur : Runs currentLists req w₀ p w := hr.weaken (robinProtocol.and_right _)
  -- what is read now are the stored configs
  have hlist : ∀ {items : List RedkeyConfig}, items.Perm w.store.configs →
      ∀ c ∈ sortBySequence items, c.phase = .applied := by
    intro items hperm c hc
    obtain ⟨cur, d, -, hcv⟩ := h.converged
    have hmem := hperm.mem_iff.mp (mem_sortBySequence.mp hc)
    rw [hcv.only, List.mem_singleton] at hmem
    rw [hmem]
    exact hcv.applied
  cases hq with
  | stay => exact h.held
  | list =>
    obtain ⟨hp, -⟩ := hcur.lists_current hf rfl ok hw
    exact hlist hp
  | relist =>
    obtain ⟨hp, -⟩ := hcur.lists_current hf rfl ok hw
    rw [Point.prune, Point.held, List.take_append_drop]
    exact hlist hp
  | prune => exact fun c hc => h.held c (List.mem_cons_of_mem _ hc)
  | refetch => exact h.held
  | retryRead => exact h.held
  | retryUpdate => exact h.held
  | _ => exact fun c hc => by cases hc

theorem Resting.silent (h : Resting req p w) (hq : Silent p q) : Resting req q w := by
  refine ⟨h.converged, ?_⟩
  cases hq with
  | reuse =>
    rw [Point.prune, Point.held, List.take_append_drop]
    exact h.held
  | pruned => exact h.held
  | await => exact h.held
  | again => exact h.held
  | _ => exact fun c hc => by cases hc

theorem Runs.resting (h₀ : Runs protocol req w₀ .idle w) (hf : Fresh req w₀)
    (hc : HasConverged req w) (h : Runs (protocol.and (specUnchanged req)) req w p v) :
    Resting req p v := by
  have hall : ∀ {p : Point} {u : World}, Runs (protocol.and (specUnchanged req)) req w p u →
      Runs protocol req w₀ p u := fun h => h₀.trans (h.weaken (Terms.and_left _ _))
  induction h using Runs.induct with
  | init => exact ⟨hc, fun c hc => by cases hc⟩
  | env p e u u' h ok hw ih =>
    refine ⟨?_, ih.held⟩
    have hr := hall h
    cases e with
    | update key spec =>
      obtain ⟨rk, hrk, -, rfl⟩ := env_update hw
      obtain ⟨cur, c, hk, hcv⟩ := ih.converged
      have hne : key ≠ req := by
        simpa [specUnchanged] using (Terms.and_right protocol (specUnchanged req)).env _ _ ok
      have hkey : (rk.withSpec spec).key = key := (hr.versions hf.versions).keyed key rk hrk
      have hne' : req ≠ (rk.withSpec spec).key := fun he => hne (hkey ▸ he.symm)
      have hst := redkeys_setRedkey_of_ne u.store hne'
      exact ⟨cur, c, hk, ⟨by rw [World.store_commit, hk, hst, ← hk]; exact hcv.stored, hcv.running,
        hcv.only, hcv.made, hcv.applied, hcv.observed, hcv.phase, hcv.replicas⟩⟩
    | robin key s =>
      obtain ⟨c, hc, rfl⟩ := env_robin hw
      have hm := robinMay_of_protocol ((Terms.and_left protocol (specUnchanged req)).env _ _ ok) hc
      exact ih.converged.robin hc hm
    | collect key => exact absurd hw ((hr.provenance hf).not_collected (hr.versions hf.versions))
  | enter p u h ih => exact ⟨ih.converged.same rfl rfl, fun c hc => by cases hc⟩
  | silent p q u h hq ih => exact ih.silent hq
  | call p q u u' c o res h hq ok hw ih =>
    have hr := hall h
    have ok := (Terms.and_left protocol (specUnchanged req)).call _ _ _ ok
    exact ⟨ih.effect hr hf (hq.issues.effect ok hw), ih.next hr hf hq ok hw⟩

/-! ## Convergence -/

section Behaviour
variable {b : Behaviour protocol (reconcile r req) ⟨w₀, none⟩}

/-- Robin's work does not grow once the config asked for is there. -/
theorem work_step (hf : Fresh req w₀) {n : Nat} (ha : Asked req (b.state n).world) :
    work (b.state (n + 1)).world.store.configs ≤ work (b.state n).world.store.configs := by
  obtain ⟨p, hp, ⟨ev, -, ok, hw⟩ | hw | hw | hw⟩ :=
    reconcile_step (b.reaches .refl n) (b.allowed n) (b.steps n)
  · exact work_env (hp.provenance hf) (hp.versions hf.versions) ok hw
  · rw [hw]
  · rw [hw]
    exact le_rfl
  · exact (ha.effect hp hf hw).2.1

/-- **A running cluster converges.** Take any infinite run of the protocol, with
failing calls, crashes and stale reads of the Redkey, in which the user leaves a
spec with primaries alone from some point on. If Robin goes on with its work, and
now and then a Reconcile runs to its end undisturbed, all its calls answered and
from the current store, then from some point on the cluster is and stays as its
spec asks for. -/
theorem running_cluster_converges (hf : Fresh req w₀)
    (b : Behaviour protocol (reconcile r req) ⟨w₀, none⟩) {N : Nat} (hk : SpecKept b N)
    (hpos : ∀ rk, (b.state N).world.store.redkeys req = some rk → 0 < rk.spec.primaries)
    (hrobin : RobinIsFair b) (hop : OperatorIsFair b) :
    ∃ K, ∀ n, K ≤ n → HasConverged req (b.state n).world := by
  have hterms := keepsTo_of_specKept .refl hf hk
  have later : ∀ {m}, N ≤ m → b.KeepsTo (protocol.and (specUnchanged req)) m :=
    fun hm n hn => hterms n (hm.trans hn)
  have hidle := runs_idle .refl b
  -- the first undisturbed Reconcile sees to the config asked for
  obtain ⟨m₁, k₁, a₁, hm₁, hc₁⟩ := hop N
  have hNk₁ : N ≤ k₁ := hm₁.trans hc₁.lt.le
  obtain ⟨rk, hrk, -⟩ := ((hidle m₁).versions hf.versions).current
  obtain ⟨rk₀, hrk₀, hsp⟩ := spec_kept .refl hf hk hm₁ rk hrk
  have hasked₁ := asked_of_reconcile (hidle m₁) hf (hidle k₁) hrk (hsp ▸ hpos rk₀ hrk₀) hc₁.exec.2
  have hasked : ∀ n, k₁ ≤ n → Asked req (b.state n).world := by
    intro n hn
    exact (hasked₁.spent hf (b.reaches .refl k₁) (Behaviour.reaches_from (later hNk₁) hn)).asked
  -- then Robin finishes its work
  obtain ⟨n₂, hn₂, hdone⟩ :=
    exists_work_done .refl hf hrobin fun n hn => work_step hf (hasked n hn)
  -- and the next undisturbed Reconcile reports it
  obtain ⟨m₃, k₃, a₃, hm₃, hc₃⟩ := hop n₂
  have hconv := converged_of_reconcile (hidle m₃) hf (hidle k₃) (hasked m₃ (hn₂.trans hm₃))
    (hdone m₃ hm₃) hc₃.exec.2
  refine ⟨k₃, fun n hn => ?_⟩
  have hNk₃ : N ≤ k₃ := hNk₁.trans (hn₂.trans (hm₃.trans hc₃.lt.le))
  obtain ⟨p, hp⟩ := runs_from (later hNk₃) hn (.inr ⟨a₃, hc₃.returned⟩)
  exact ((hidle k₃).resting hf hconv hp).converged

end Behaviour

theorem running_cluster_converges_sample :
    ∃ b : Behaviour protocol sampleReconcile ⟨sampleWorld 3, none⟩,
      SpecKept b 0 ∧ RobinIsFair b ∧ OperatorIsFair b ∧
        ∃ K, ∀ n, K ≤ n → HasConverged sampleKey (b.state n).world := by
  have hf := fresh_sampleWorld 3
  obtain ⟨b, hb⟩ := exists_fairly (r := ⟨60⟩) hf (T := protocol) .refl (.refl protocol)
    fun t ht => (fairly_step hf ht).1
  have hk := specKept_fairly hb
  have hrobin := robinIsFair_fairly .refl hf (.refl protocol) hb
  have hop := operatorIsFair_fairly .refl hf hb
  refine ⟨b, hk, hrobin, hop, running_cluster_converges hf b hk ?_ hrobin hop⟩
  intro rk hrk
  rw [b.init] at hrk
  cases (redkeys_sampleWorld 3).symm.trans hrk
  decide

end RedkeyOperator.Protocol
