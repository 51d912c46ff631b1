import RedkeyOperator.Protocol.Phases

/-! # The config a status is taken from

`aggregateStatus` takes the status from the config in progress, or else from
the first one of the list it is handed. That list is pruned to start at the
last Applied config while the cluster runs, and is as it was read while a
scale-down is awaited. -/
namespace RedkeyOperator.Protocol
open RedkeyOperator.Api RedkeyOperator.Kube RedkeyOperator.Interleave RedkeyOperator.Controller

variable {T : Terms server} {req : NamespacedName} {w₀ w w' : World} {p q : Point}
  {r : RedkeyReconciler} {s : State server Result}

/-- The status update that waits for its answer. -/
def pendingUpdate (s : State server Result) : Option Redkey :=
  match pendingCall s with
  | some (.write (.updateStatus rk)) => some rk
  | _ => none

theorem pendingUpdate_eq {rk : Redkey} (h : pendingUpdate s = some rk) :
    pendingCall s = some (.write (.updateStatus rk)) := by
  unfold pendingUpdate at h
  split at h
  · rename_i hc
    cases h
    exact hc
  · cases h

/-- The status comes from `aggregateStatus`. -/
def isAggregated (rk : Redkey) : Bool :=
  (findStatusCondition rk.status.conditions "Ready").any fun c => c.reason == "StatusAggregated"

/-- The list the current Reconcile hands to `aggregateStatus`, from what it has read. -/
def handedList (w : World) : Option (List RedkeyConfig) :=
  w.snapshot.bind fun cluster => w.listed.map fun items =>
    let configs := sortBySequence items
    if cluster.spec.primaries = 0 then configs else configs.drop (lastAppliedIndex configs)

/-- The status in `rk` is taken from the active config of the list. -/
def AggregatedFrom (rk : Redkey) (configs : List RedkeyConfig) : Prop :=
  ∃ (latest : Redkey) (active : RedkeyConfig) (now : Time) (g : Nat),
    selectActiveConfig configs = some active ∧
    rk = { latest with status := aggregatedStatus now latest active g }

theorem Handed.handedList {cluster : Redkey} {configs : List RedkeyConfig}
    (h : Handed cluster configs w)
    (hs : w.snapshot = some cluster) : handedList w = some configs := by
  obtain ⟨all, ⟨items, hi, rfl⟩, hc⟩ := h
  rw [Protocol.handedList, hs, hi.listed]
  obtain ⟨hp, rfl⟩ | ⟨hw, rfl⟩ := hc
  · simp [hp]
  · simp [hw.1]

/-- What is known when an aggregated status is about to be written. -/
theorem pending_aggregate (hc : Cursors w₀) (h : Reaches T (reconcile r req) ⟨w₀, none⟩ s)
    {rk : Redkey} (hu : pendingUpdate s = some rk)
    (ha : isAggregated rk = true ∨ ∃ cluster, s.world.snapshot = some cluster ∧
      cluster.spec.primaries ≠ 0) :
    ∃ cluster configs latest, Runs T req w₀ (.refetched cluster configs latest) s.world ∧
      s.world.snapshot = some cluster ∧ Handed cluster configs s.world ∧
      AggregatedFrom rk configs := by
  obtain ⟨p, hp, hi⟩ := reconcile_pending h (pendingUpdate_eq hu)
  have hs := hp.sourced hc
  obtain ⟨cluster, configs, latest, active, now, rfl, hact, rfl⟩ | ⟨cluster, now, rfl, rfl⟩ :=
    hi.of_updateStatus
  · exact ⟨cluster, configs, latest, hp, hs.1.snapshot, hs.2.1, latest, active, now, _, hact, rfl⟩
  · exfalso
    obtain ha | ⟨cluster', hs', hp'⟩ := ha
    · obtain ⟨c, hc, hr⟩ := reason_scaledToZeroStatus now cluster
      simp [isAggregated, hc, hr] at ha
    · rw [hs.1.snapshot] at hs'
      cases hs'
      exact hp' hs.2.1

/-! ## The current baseline -/

/-- Unless a config is in progress, the active one is the newest Applied one. -/
def ActiveIsNewest (configs : List RedkeyConfig) : Prop :=
  (∀ c ∈ configs, c.phase ≠ .inProgress) → (∃ c ∈ configs, c.phase = .applied) →
    ∃ active, selectActiveConfig configs = some active ∧ active.phase = .applied ∧
      ∀ c ∈ configs, c.phase = .applied → c.sequence ≤ active.sequence

theorem activeIsNewest_pruned (configs : List RedkeyConfig) :
    ActiveIsNewest (configs.drop (lastAppliedIndex configs)) := by
  rintro hno ⟨c, hc, hp⟩
  obtain ⟨a, rest, hd, ha, hrest⟩ := drop_lastAppliedIndex ⟨c, List.mem_of_mem_drop hc, hp⟩
  rw [hd] at hno ⊢
  refine ⟨a, selectActiveConfig_head hno, ha, fun d hd hdp => ?_⟩
  rcases List.mem_cons.mp hd with rfl | hd
  · exact le_rfl
  · exact absurd hdp (hrest d hd)

/-- Of a list that is not pruned the first config is taken. -/
theorem activeIsNewest_iff {configs : List RedkeyConfig} (ha : Ascending configs) :
    ActiveIsNewest configs ↔
      (∃ c ∈ configs, c.phase = .inProgress) ∨ ∀ c ∈ configs.tail, c.phase ≠ .applied := by
  cases configs with
  | nil => exact ⟨fun _ => .inr (by simp), fun _ _ ⟨c, hc, _⟩ => absurd hc List.not_mem_nil⟩
  | cons a rest =>
    constructor
    · intro h
      by_cases hin : ∃ c ∈ a :: rest, c.phase = .inProgress
      · exact .inl hin
      · refine .inr fun c hc hp => ?_
        have hno : ∀ d ∈ a :: rest, d.phase ≠ .inProgress := fun d hd hdp => hin ⟨d, hd, hdp⟩
        obtain ⟨active, hact, -, hmax⟩ := h hno ⟨c, List.mem_cons_of_mem _ hc, hp⟩
        rw [selectActiveConfig_head hno] at hact
        cases hact
        have := hmax c (List.mem_cons_of_mem _ hc) hp
        exact absurd ((List.pairwise_cons.mp ha).1 c hc) (by omega)
    · rintro (⟨c, hc, hp⟩ | htail) hno ⟨d, hd, hdp⟩
      · exact absurd hp (hno c hc)
      · have honly : ∀ c ∈ a :: rest, c.phase = .applied → c = a := fun c hc hp =>
          (List.mem_cons.mp hc).resolve_right fun hc => htail c hc hp
        refine ⟨a, selectActiveConfig_head hno, honly d hd hdp ▸ hdp, fun c hc hp => ?_⟩
        rw [honly c hc hp]

theorem ReadConfigs.ascending {rk : Redkey} {configs : List RedkeyConfig}
    (h : ReadConfigs rk configs w)
    (hp : Provenance req w) (hv : Versions req w) : Ascending configs := by
  obtain ⟨items, ⟨-, i, st, -, -, hst, hperm⟩, rfl⟩ := h
  refine sortBySequence_ascending ((hperm.map RedkeyConfig.sequence).nodup_iff.mpr ?_)
  exact ((hp.sequences_nodup hv (List.mem_of_getElem? hst)).sublist (List.filter_sublist.map _))

/-- In every run, whatever Robin does and however stale the reads are: the
active config is the newest Applied one, except while a scale-down is awaited
and a config after the first one of the list is Applied. -/
theorem active_is_newest_iff (hf : Fresh req w₀) (h : Reaches T (reconcile r req) ⟨w₀, none⟩ s)
    {rk : Redkey} (hu : pendingUpdate s = some rk) (ha : isAggregated rk = true) :
    ∃ cluster configs, s.world.snapshot = some cluster ∧ handedList s.world = some configs ∧
      AggregatedFrom rk configs ∧
      (ActiveIsNewest configs ↔ (cluster.spec.primaries = 0 → (∃ c ∈ configs, c.phase = .inProgress) ∨
        ∀ c ∈ configs.tail, c.phase ≠ .applied)) := by
  obtain ⟨cluster, configs, latest, hrun, hs, hh, hagg⟩ := pending_aggregate hf.cursors h hu (.inl ha)
  refine ⟨cluster, configs, hs, hh.handedList hs, hagg, ?_⟩
  obtain ⟨all, hread, ⟨hp, rfl⟩ | ⟨hw, rfl⟩⟩ := hh
  · exact ⟨fun _ h0 => absurd h0 hp, fun _ => activeIsNewest_pruned all⟩
  · rw [activeIsNewest_iff (hread.ascending (hrun.provenance hf) (hrun.versions hf.versions))]
    exact ⟨fun h _ => h, fun h => h hw.1⟩

/-- A status update of the sample cluster is pending, from a list with the given phases. -/
def pendingFrom (phases : List (Nat × ConfigPhase)) (s : State server Result) : Bool :=
  (pendingUpdate s).any isAggregated &&
    (handedList s.world).any fun configs => configs.map (fun c => (c.sequence, c.phase)) == phases

theorem of_pendingFrom {phases : List (Nat × ConfigPhase)} (h : pendingFrom phases s = true) :
    ∃ rk configs, pendingUpdate s = some rk ∧ isAggregated rk = true ∧
      handedList s.world = some configs ∧ configs.map (fun c => (c.sequence, c.phase)) = phases := by
  obtain ⟨hu, hl⟩ := Bool.and_eq_true_iff.mp h
  obtain ⟨rk, hrk, ha⟩ := (Option.any_eq_true _ _).mp hu
  obtain ⟨configs, hc, hp⟩ := (Option.any_eq_true _ _).mp hl
  exact ⟨rk, configs, hrk, ha, hc, beq_iff_eq.mp hp⟩

set_option maxRecDepth 100000 in
/-- The sample cluster with its first config applied. -/
theorem active_is_newest_iff_sample :
    ∃ s rk, Reaches (protocol.and robinSkips) sampleReconcile ⟨sampleWorld 3, none⟩ s ∧
      pendingUpdate s = some rk ∧
      ∃ cluster configs, s.world.snapshot = some cluster ∧ handedList s.world = some configs ∧
        AggregatedFrom rk configs ∧
        (ActiveIsNewest configs ↔ (cluster.spec.primaries = 0 →
          (∃ c ∈ configs, c.phase = .inProgress) ∨ ∀ c ∈ configs.tail, c.phase ≠ .applied)) := by
  obtain ⟨s, hs, ht⟩ : ∃ s,
      Reaches (protocol.and robinSkips) sampleReconcile ⟨sampleWorld 3, none⟩ s ∧
        pendingFrom [(1, .applied)] s = true :=
    exists_reaches_of_play (undisturbed ++ [robinMoves 1 .inProgress, robinMoves 1 .applied,
      .event .start, .drain .ok 8]) _ (by decide +kernel)
  obtain ⟨rk, -, hu, ha, -⟩ := of_pendingFrom ht
  exact ⟨s, rk, hs, hu, active_is_newest_iff (fresh_sampleWorld 3) hs hu ha⟩

/-- Two configs are applied before the cluster is scaled down, so that nothing
prunes the first one while Robin has the scale-down. -/
def awaitUnpruned : List (Move server) :=
  undisturbed ++ [robinMoves 1 .inProgress, robinMoves 1 .applied, scaleTo 5] ++ undisturbed ++
    [robinMoves 2 .inProgress, robinMoves 2 .applied, scaleTo 0] ++ undisturbed ++
    [.event .start, .drain .ok 8]

set_option maxRecDepth 100000 in
theorem active_can_be_outdated :
    ¬ ∀ (r : RedkeyReconciler) (req : NamespacedName) (w₀ : World) (s : State server Result)
      (rk : Redkey) (configs : List RedkeyConfig), Fresh req w₀ →
      Reaches (protocol.and robinSkips) (reconcile r req) ⟨w₀, none⟩ s →
      pendingUpdate s = some rk → isAggregated rk = true → handedList s.world = some configs →
      ActiveIsNewest configs := by
  intro hall
  obtain ⟨s, hs, ht⟩ : ∃ s,
      Reaches (protocol.and robinSkips) sampleReconcile ⟨sampleWorld 3, none⟩ s ∧
        pendingFrom [(1, .applied), (2, .applied), (3, .unset)] s = true :=
    exists_reaches_of_play awaitUnpruned _ (by decide +kernel)
  obtain ⟨rk, configs, hu, hagg, hl, hp⟩ := of_pendingFrom ht
  have hnew := hall _ _ _ s rk configs (fresh_sampleWorld 3) hs hu hagg hl
  obtain ⟨a, l, rfl, ha, hp⟩ := List.map_eq_cons_iff.mp hp
  obtain ⟨b, l, rfl, hb, hp⟩ := List.map_eq_cons_iff.mp hp
  obtain ⟨c, l, rfl, hc, hp⟩ := List.map_eq_cons_iff.mp hp
  obtain rfl := List.map_eq_nil_iff.mp hp
  rw [Prod.mk.injEq] at ha hb hc
  have hasc : Ascending [a, b, c] := by simp [ha.1, hb.1, hc.1]
  obtain ⟨d, hd, hdp⟩ | htail := (activeIsNewest_iff hasc).mp hnew
  · simp only [List.mem_cons, List.not_mem_nil, or_false] at hd
    obtain rfl | rfl | rfl := hd <;> simp_all
  · exact htail b (by simp) hb.2

/-! ## Ready -/

/-- Nothing is Applied or in progress and the oldest config was skipped. -/
def skippedFirst (items : List RedkeyConfig) : Bool :=
  items.all (fun c => c.phase != .applied && c.phase != .inProgress) &&
    (sortBySequence items).head?.any fun c =>
      c.phase == .superseded && c.status.status != clusterPhaseError

/-- A status is Ready when the active config is finished and not in error. -/
theorem ready_aggregatedStatus (now : Time) (latest : Redkey) (active : RedkeyConfig) (g : Nat) :
    (aggregatedStatus now latest active g).phase = .ready ↔
      finished active = true ∧ active.status.status ≠ clusterPhaseError := by
  rw [phase_aggregatedStatus, configsPhase, finished]
  cases isTerminalConfigPhase active.phase <;>
    by_cases he : active.status.status = clusterPhaseError <;> simp [he]

/-- In every run, whatever Robin does and however stale the reads are: a status
written for a cluster with primaries is Ready only with an Applied config in the
list read, unless nothing was applied yet and the oldest config was skipped. -/
theorem ready_has_applied_iff (hf : Fresh req w₀) (h : Reaches T (reconcile r req) ⟨w₀, none⟩ s)
    {rk cluster : Redkey} (hu : pendingUpdate s = some rk) (hs : s.world.snapshot = some cluster)
    (hpos : 0 < cluster.spec.primaries) :
    ∃ items, s.world.listed = some items ∧
      ((rk.status.phase = .ready → ∃ c ∈ items, c.phase = .applied) ↔ skippedFirst items = false) := by
  obtain ⟨cluster', configs, latest, -, hs', hh, latest', active, now, g, hact, rfl⟩ :=
    pending_aggregate hf.cursors h hu (.inr ⟨cluster, hs, hpos.ne'⟩)
  rw [hs, Option.some.injEq] at hs'
  subst hs'
  obtain ⟨all, ⟨items, hi, rfl⟩, ⟨-, rfl⟩ | ⟨hw, -⟩⟩ := hh
  · refine ⟨items, hi.listed, ?_⟩
    rw [ready_aggregatedStatus]
    by_cases happ : ∃ c ∈ items, c.phase = .applied
    · refine ⟨fun _ => ?_, fun _ _ => happ⟩
      obtain ⟨c, hc, hp⟩ := happ
      exact Bool.and_eq_false_iff.mpr (.inl (List.all_eq_false.mpr ⟨c, hc, by simp [hp]⟩))
    · -- nothing is pruned, and the oldest config is active unless one is in progress
      have hno : ∀ c ∈ sortBySequence items, c.phase ≠ .applied := fun c hc hp =>
        happ ⟨c, mem_sortBySequence.mp hc, hp⟩
      rw [lastAppliedIndex_eq_zero hno, List.drop_zero] at hact
      by_cases hin : ∃ c ∈ sortBySequence items, c.phase = .inProgress
      · obtain ⟨c, hc, hp⟩ := hin
        obtain ⟨a, ha, hap⟩ := selectActiveConfig_inProgress hc hp
        rw [hact, Option.some.injEq] at ha
        subst ha
        refine ⟨fun _ => ?_, fun _ hr => ?_⟩
        · exact Bool.and_eq_false_iff.mpr (.inl (List.all_eq_false.mpr
            ⟨c, mem_sortBySequence.mp hc, by simp [hp]⟩))
        · simp [finished, isTerminalConfigPhase, hap] at hr
      · cases hsorted : sortBySequence items with
        | nil => rw [hsorted] at hact; cases hact
        | cons a rest =>
          rw [hsorted] at hact hno hin
          have hnp : ∀ c ∈ a :: rest, c.phase ≠ .inProgress := fun c hc hp => hin ⟨c, hc, hp⟩
          rw [selectActiveConfig_head hnp, Option.some.injEq] at hact
          subst hact
          have hall : items.all (fun c => c.phase != .applied && c.phase != .inProgress) = true := by
            refine List.all_eq_true.mpr fun c hc => ?_
            have hc : c ∈ a :: rest := hsorted ▸ mem_sortBySequence.mpr hc
            simp [hno c hc, hnp c hc]
          have hfin : finished a = true ↔ a.phase = .superseded := by
            simp [finished, isTerminalConfigPhase, hno a List.mem_cons_self]
          rw [skippedFirst, hall, hsorted, List.head?_cons, Option.any_some, Bool.true_and, hfin]
          simp [happ]
  · exact absurd hw.1 hpos.ne'

/-- A status update of the sample cluster, running and Ready, is pending. -/
def pendingReady (s : State server Result) : Bool :=
  ((pendingUpdate s).any fun rk => rk.status.phase == .ready) &&
    s.world.snapshot.any fun cluster => decide (0 < cluster.spec.primaries)

theorem of_pendingReady (h : pendingReady s = true) :
    ∃ rk cluster, pendingUpdate s = some rk ∧ rk.status.phase = .ready ∧
      s.world.snapshot = some cluster ∧ 0 < cluster.spec.primaries := by
  obtain ⟨hu, hc⟩ := Bool.and_eq_true_iff.mp h
  obtain ⟨rk, hrk, hr⟩ := (Option.any_eq_true _ _).mp hu
  obtain ⟨cluster, hs, hp⟩ := (Option.any_eq_true _ _).mp hc
  exact ⟨rk, cluster, hrk, beq_iff_eq.mp hr, hs, of_decide_eq_true hp⟩

set_option maxRecDepth 100000 in
/-- The sample cluster with its first config applied is Ready. -/
theorem ready_has_applied_iff_sample :
    ∃ s rk, Reaches (protocol.and robinSkips) sampleReconcile ⟨sampleWorld 3, none⟩ s ∧
      pendingUpdate s = some rk ∧ rk.status.phase = .ready ∧
      ∃ items, s.world.listed = some items ∧
        ((rk.status.phase = .ready → ∃ c ∈ items, c.phase = .applied) ↔
          skippedFirst items = false) := by
  obtain ⟨s, hs, ht⟩ : ∃ s,
      Reaches (protocol.and robinSkips) sampleReconcile ⟨sampleWorld 3, none⟩ s ∧
        pendingReady s = true :=
    exists_reaches_of_play (undisturbed ++ [robinMoves 1 .inProgress, robinMoves 1 .applied,
      .event .start, .drain .ok 8]) _ (by decide +kernel)
  obtain ⟨rk, cluster, hu, hr, hsnap, hpos⟩ := of_pendingReady ht
  exact ⟨s, rk, hs, hu, hr, ready_has_applied_iff (fresh_sampleWorld 3) hs hu hsnap hpos⟩

/-- Two configs are queued and Robin skips the first one. -/
def skipFirst : List (Move server) :=
  undisturbed ++ [scaleTo 5] ++ undisturbed ++
    [robinMoves 1 .superseded, .event .start, .drain .ok 8]

set_option maxRecDepth 100000 in
theorem ready_can_lack_applied :
    ¬ ∀ (r : RedkeyReconciler) (req : NamespacedName) (w₀ : World) (s : State server Result)
      (rk cluster : Redkey) (items : List RedkeyConfig), Fresh req w₀ →
      Reaches (protocol.and robinSkips) (reconcile r req) ⟨w₀, none⟩ s →
      pendingUpdate s = some rk → s.world.snapshot = some cluster → 0 < cluster.spec.primaries →
      s.world.listed = some items → rk.status.phase = .ready → ∃ c ∈ items, c.phase = .applied := by
  intro hall
  obtain ⟨s, hs, ht⟩ : ∃ s,
      Reaches (protocol.and robinSkips) sampleReconcile ⟨sampleWorld 3, none⟩ s ∧
        (pendingReady s && s.world.listed.any fun items =>
          items.all fun c => c.phase != .applied) = true :=
    exists_reaches_of_play skipFirst _ (by decide +kernel)
  obtain ⟨ht, hl⟩ := Bool.and_eq_true_iff.mp ht
  obtain ⟨rk, cluster, hu, hr, hsnap, hpos⟩ := of_pendingReady ht
  obtain ⟨items, hi, hno⟩ := (Option.any_eq_true _ _).mp hl
  obtain ⟨c, hc, hp⟩ := hall _ _ _ s rk cluster items (fresh_sampleWorld 3) hs hu hsnap hpos hi hr
  simpa [hp] using List.all_eq_true.mp hno c hc

end RedkeyOperator.Protocol
