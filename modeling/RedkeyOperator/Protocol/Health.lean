import RedkeyOperator.Protocol.Baseline
import RedkeyOperator.Protocol.StatusHistory

/-! # Health conditions

`aggregateStatus` mirrors the health conditions of a settled config and sets
them to Unknown otherwise. `updateStatusScaledToZero` does not touch them: what
a cluster without nodes reports is what was aggregated last. -/
namespace RedkeyOperator.Protocol
open RedkeyOperator.Api RedkeyOperator.Kube RedkeyOperator.Interleave RedkeyOperator.Controller

variable {T : Terms server} {req : NamespacedName} {w₀ w : World} {p : Point}
  {r : RedkeyReconciler} {s : State server Result}

def Reconciling (c : Condition) : Prop := c.status = .unknown ∧ c.reason = "Reconciling"

/-- `c` is as the active config of the list reports it, and that config is settled. -/
def ReflectsActive (configs : List RedkeyConfig) (c : Condition) : Prop :=
  ∃ active src, selectActiveConfig configs = some active ∧ settled active = true ∧
    findStatusCondition active.status.conditions c.type = some src ∧
    c.status = src.status ∧ c.reason = src.reason ∧ c.message = src.message

/-- Every health condition of the status has this property. -/
def Health (P : Condition → Prop) (status : RedkeyStatus) : Prop :=
  ∀ type ∈ healthConditionTypes, ∀ c, findStatusCondition status.conditions type = some c → P c

/-- The health conditions are unknown or those of the list handed to `aggregateStatus`. -/
def FreshHealth (w : World) : RedkeyStatus → Prop :=
  Health fun c => Reconciling c ∨ ∃ configs, handedList w = some configs ∧ ReflectsActive configs c

/-! ## What the writers do -/

section Writes
variable {latest cluster : Redkey} {active : RedkeyConfig} {configs : List RedkeyConfig} {g : Nat}
  {now : Time} {status : RedkeyStatus}

theorem find_aggregate {type : String} (h : type ∈ healthConditionTypes) :
    findStatusCondition ((StatusWrite.aggregate latest active g).apply now status).conditions type =
      some (transition now (healthCondition (settled active) active type)
        (findStatusCondition status.conditions type)) := by
  have hmem : healthCondition (settled active) active type ∈
      (StatusWrite.aggregate latest active g).sets :=
    List.mem_append_right _ (List.mem_map_of_mem h)
  have hfind : findStatusCondition (setConditions now _ status.conditions)
      (healthCondition (settled active) active type).type = _ :=
    findStatusCondition_setConditions_of_mem (StatusWrite.nodup_sets _) hmem
  rw [type_healthCondition] at hfind
  rw [StatusWrite.conditions_apply, hfind]

theorem health_aggregate_of_not_settled (h : settled active = false) :
    Health Reconciling ((StatusWrite.aggregate latest active g).apply now status) := by
  intro type ht c hc
  rw [find_aggregate ht, h] at hc
  cases hc
  exact ⟨rfl, rfl⟩

theorem health_aggregate (ha : selectActiveConfig configs = some active) :
    Health (fun c => Reconciling c ∨ ReflectsActive configs c)
      ((StatusWrite.aggregate latest active g).apply now status) := by
  intro type ht c hc
  cases hs : settled active with
  | false => exact .inl (health_aggregate_of_not_settled hs type ht c hc)
  | true =>
    rw [find_aggregate ht, hs] at hc
    cases hc
    cases hsrc : findStatusCondition active.status.conditions type with
    | none => exact .inl (by simp [healthCondition, hsrc, transition, Reconciling])
    | some src =>
      refine .inr ⟨active, src, ha, hs, ?_⟩
      simp [healthCondition, hsrc, transition]

theorem health_scaledToZero {P : Condition → Prop} (h : Health P status) :
    Health P ((StatusWrite.scaledToZero cluster).apply now status) := by
  intro type ht c hc
  rw [StatusWrite.conditions_apply, findStatusCondition_setConditions_of_notMem] at hc
  · exact h type ht c hc
  · exact health_notMem_lifecycle ht

/-- The status does not report a settled config. -/
def unsettled (status : RedkeyStatus) : Bool :=
  status.status != clusterStatusReady || conditionStatusOf "ConfigPending" status != some .false

theorem not_settled_of_unsettled
    (h : unsettled ((StatusWrite.aggregate latest active g).apply now status) = true) :
    settled active = false := by
  by_contra hs
  rw [Bool.not_eq_false, settled, Bool.and_eq_true, beq_iff_eq] at hs
  have hpending : conditionStatusOf "ConfigPending"
      ((StatusWrite.aggregate latest active g).apply now status) = some .false := by
    rw [conditionStatusOf, StatusWrite.lifecycle_apply _ now status "ConfigPending" (by decide)]
    simp only [StatusWrite.phase, configsPhase, hs.1, hs.2]
    decide
  have hready : ((StatusWrite.aggregate latest active g).apply now status).status =
      clusterStatusReady := hs.2
  simp [unsettled, hpending, hready] at h

end Writes

/-! ## In every run -/

/-- The status of an empty cluster is written only over one that does not report
a settled config. -/
def haltsUnsettled : Terms server where
  env _ _ := true
  call c _ w := match c with
    | .write (.updateStatus rk) =>
      isAggregated rk || (w.store.redkeys rk.key).all fun cur => unsettled cur.status
    | _ => true

theorem haltsUnsettled_zero {cur : Redkey} {now : Time} {o : Outcome}
    (hc : w.store.redkeys cur.key = some cur)
    (ok : haltsUnsettled.call (.write (.updateStatus
      { cur with status := (StatusWrite.scaledToZero cur).apply now cur.status })) o w = true) :
    unsettled cur.status = true := by
  obtain ⟨c, hfind, hreason⟩ := reason_scaledToZeroStatus now cur
  have hagg : isAggregated
      { cur with status := (StatusWrite.scaledToZero cur).apply now cur.status } = false := by
    simp [isAggregated, StatusWrite.apply, hfind, hreason]
  simpa [haltsUnsettled, hagg, hc] using ok

/-- A status that does not report a settled config has no mirrored conditions. -/
theorem Runs.unsettled_health (h : Runs haltsUnsettled req w₀ p w) (hn : Newborn req w₀) :
    ∀ st ∈ w.history, ∀ rk, st.redkeys req = some rk →
      unsettled rk.status = true → Health Reconciling rk.status := by
  refine h.statuses (P := fun _ s => unsettled s = true → Health Reconciling s) hn
    (fun _ type _ c hc => by cases hc) (fun _ _ _ _ h => h) ?_
  intro p w rk st hr hrk hs ih
  cases hs with
  | same => exact ih
  | @write wr now o ha ok =>
    cases ha with
    | aggregate => exact fun hu => health_aggregate_of_not_settled (not_settled_of_unsettled hu)
    | scaledToZero =>
      have hkey := (hr.versions hn.versions).keyed _ _ hrk
      exact fun _ => health_scaledToZero (ih (haltsUnsettled_zero (hkey.symm ▸ hrk) ok))

/-- In every run in which the status of an empty cluster is written only over one
that does not report a settled config: a status that the API server accepts has
no stale health conditions. -/
theorem health_is_fresh (hn : Newborn req w₀)
    (h : Reaches haltsUnsettled (reconcile r req) ⟨w₀, none⟩ s) {rk cur : Redkey}
    (hu : pendingUpdate s = some rk) (hc : s.world.store.redkeys rk.key = some cur)
    (hv : rk.resourceVersion = cur.resourceVersion)
    (ok : haltsUnsettled.call (.write (.updateStatus rk)) .ok s.world = true) :
    FreshHealth s.world rk.status := by
  obtain ⟨p, hp, hi⟩ := reconcile_pending h (pendingUpdate_eq hu)
  obtain ⟨hcur, wr, now, ha, rfl⟩ :=
    hi.authored (hp.versions hn.versions) (hp.sourced hn.cursors) hc hv
  cases ha with
  | aggregate hpc hr hh ha =>
    have hl := hh.handedList hr.snapshot
    intro type ht c hc
    exact (health_aggregate ha type ht c hc).imp_right fun hm => ⟨_, hl, hm⟩
  | scaledToZero hpc hr h0 =>
    have hun := haltsUnsettled_zero hc ok
    have hrec := hp.unsettled_health hn _ s.world.store_mem_history cur hcur hun
    intro type ht c hc
    exact .inl (health_scaledToZero hrec type ht c hc)

/-- Robin reports a healthy cluster. -/
def robinHealthy (seq : Nat) : Move server :=
  .event (.env (.robin ⟨"ns", configName "rk" seq⟩
    { configPhase := .applied
      status := clusterStatusReady
      conditions := [{ type := "Healthy", status := .true, reason := "AllNodesUp" }] }))

/-- A healthy cluster is scaled down, and Robin is seen at work. -/
def haltSeen : List (Move server) :=
  undisturbed ++ [robinMoves 1 .inProgress, robinHealthy 1] ++ undisturbed ++ [scaleTo 0] ++
    undisturbed ++ [robinMoves 2 .inProgress] ++ undisturbed ++ [robinMoves 2 .applied] ++
    undisturbed ++ [.event .start, .drain .ok 3]

/-- The same, with no Reconcile while Robin is at work. -/
def haltUnseen : List (Move server) :=
  undisturbed ++ [robinMoves 1 .inProgress, robinHealthy 1] ++ undisturbed ++ [scaleTo 0] ++
    undisturbed ++ [robinMoves 2 .inProgress, robinMoves 2 .applied] ++
    undisturbed ++ [.event .start, .drain .ok 3]

/-- A status that the API server would accept waits to be written for a cluster
without configs. -/
def pendingEmpty (s : State server Result) : Bool :=
  (pendingUpdate s).any fun rk => (handedList s.world).any List.isEmpty &&
    (s.world.store.redkeys rk.key).any fun cur => rk.resourceVersion == cur.resourceVersion

theorem of_pendingEmpty (h : pendingEmpty s = true) : ∃ rk cur, pendingUpdate s = some rk ∧
    handedList s.world = some [] ∧ s.world.store.redkeys rk.key = some cur ∧
    rk.resourceVersion = cur.resourceVersion := by
  obtain ⟨rk, hrk, h⟩ := (Option.any_eq_true _ _).mp h
  obtain ⟨hl, hc⟩ := Bool.and_eq_true_iff.mp h
  obtain ⟨configs, hconfigs, he⟩ := (Option.any_eq_true _ _).mp hl
  obtain ⟨cur, hcur, hv⟩ := (Option.any_eq_true _ _).mp hc
  exact ⟨rk, cur, hrk, List.isEmpty_iff.mp he ▸ hconfigs, hcur, beq_iff_eq.mp hv⟩

set_option maxRecDepth 100000 in
theorem health_is_fresh_sample :
    ∃ s rk, Reaches haltsUnsettled sampleReconcile ⟨sampleWorld 3, none⟩ s ∧
      pendingUpdate s = some rk ∧ handedList s.world = some [] ∧ FreshHealth s.world rk.status := by
  obtain ⟨s, hs, hok⟩ : ∃ s, Reaches haltsUnsettled sampleReconcile ⟨sampleWorld 3, none⟩ s ∧
      (pendingEmpty s && (pendingUpdate s).all fun rk =>
        haltsUnsettled.call (.write (.updateStatus rk)) .ok s.world) = true :=
    exists_reaches_of_play haltSeen _ (by decide +kernel)
  obtain ⟨he, hok⟩ := Bool.and_eq_true_iff.mp hok
  obtain ⟨rk, cur, hrk, hl, hcur, hv⟩ := of_pendingEmpty he
  rw [hrk] at hok
  exact ⟨s, rk, hs, hrk, hl, health_is_fresh (fresh_sampleWorld 3).toNewborn hs hrk hcur hv hok⟩

/-- The Redkey reports a healthy cluster. -/
def reportsHealthy (rk : Redkey) : Bool :=
  (findStatusCondition rk.status.conditions "Healthy").any fun c => c.status == .true

theorem not_fresh_of_reportsHealthy {rk : Redkey} (hl : handedList w = some [])
    (h : reportsHealthy rk = true) : ¬ FreshHealth w rk.status := by
  intro hf
  obtain ⟨c, hc, ht⟩ := (Option.any_eq_true _ _).mp h
  obtain ⟨hu, -⟩ | ⟨configs, hl', active, src, ha, -⟩ := hf "Healthy" (by decide) c hc
  · rw [hu] at ht
    cases ht
  · rw [hl, Option.some.injEq] at hl'
    subst hl'
    cases ha

set_option maxRecDepth 100000 in
theorem empty_cluster_can_report_healthy :
    ¬ ∀ (r : RedkeyReconciler) (req : NamespacedName) (w₀ : World) (s : State server Result)
      (rk cur : Redkey), Fresh req w₀ → Reaches protocol (reconcile r req) ⟨w₀, none⟩ s →
      pendingUpdate s = some rk → s.world.store.redkeys rk.key = some cur →
      rk.resourceVersion = cur.resourceVersion → FreshHealth s.world rk.status := by
  intro hall
  obtain ⟨s, hs, h⟩ : ∃ s, Reaches protocol sampleReconcile ⟨sampleWorld 3, none⟩ s ∧
      (pendingEmpty s && (pendingUpdate s).all reportsHealthy) = true :=
    exists_reaches_of_play haltUnseen _ (by decide +kernel)
  obtain ⟨he, hh⟩ := Bool.and_eq_true_iff.mp h
  obtain ⟨rk, cur, hrk, hl, hcur, hv⟩ := of_pendingEmpty he
  rw [hrk] at hh
  exact not_fresh_of_reportsHealthy hl hh
    (hall _ _ _ s rk cur (fresh_sampleWorld 3) hs hrk hcur hv)

end RedkeyOperator.Protocol
