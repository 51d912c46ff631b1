import Mathlib.Data.List.Induction
import RedkeyOperator.Data.Keyed
import RedkeyOperator.Controller.Config

/-! The conditions of a Redkey as a list with one entry for each type: what the
two status writers set, what they leave, and the phase that follows. -/
namespace RedkeyOperator.Controller
open RedkeyOperator.Api RedkeyOperator.Data.Keyed

/-! ## Setting conditions -/

/-- `new` in the place of `old`: the transition time is kept with the status. -/
def transition (now : Time) (new : Condition) (old : Option Condition) : Condition :=
  { new with lastTransitionTime := match old with
    | some c => if c.status = new.status then c.lastTransitionTime else now
    | none => now }

theorem setStatusCondition_eq (now : Time) (conditions : List Condition) (new : Condition) :
    setStatusCondition now conditions new =
      upsert Condition.type new.type (transition now new) conditions := by
  induction conditions with
  | nil => rfl
  | cons c cs ih =>
    unfold setStatusCondition upsert
    simp only [beq_iff_eq, ih]
    rfl

/-- Several conditions set one after the other. -/
def setConditions (now : Time) (news : List Condition) (conditions : List Condition) :
    List Condition :=
  upsertAll Condition.type (news.map fun new => (new.type, transition now new)) conditions

theorem setConditions_eq (now : Time) (news conditions : List Condition) :
    setConditions now news conditions = news.foldl (setStatusCondition now) conditions := by
  have hset : setStatusCondition now = fun cs new =>
      upsert Condition.type new.type (transition now new) cs := by
    funext cs new
    exact setStatusCondition_eq now cs new
  rw [setConditions, upsertAll, List.foldl_map, hset]

section setConditions
variable {now : Time} {news conditions : List Condition}

theorem transition_keyed : ∀ e ∈ news.map fun new => (new.type, transition now new),
    ∀ o, (e.2 o).type = e.1 := by
  intro e he o
  obtain ⟨new, -, rfl⟩ := List.mem_map.mp he
  rfl

theorem types_entries : (news.map fun new => (new.type, transition now new)).map Prod.fst =
    news.map Condition.type := by
  rw [List.map_map]
  rfl

theorem findStatusCondition_setConditions_of_mem (hn : (news.map Condition.type).Nodup)
    {new : Condition} (h : new ∈ news) :
    findStatusCondition (setConditions now news conditions) new.type =
      some (transition now new (findStatusCondition conditions new.type)) :=
  lookup_upsertAll_of_mem (e := (new.type, transition now new)) transition_keyed
    (types_entries ▸ hn) (List.mem_map.mpr ⟨new, h, rfl⟩) conditions

theorem findStatusCondition_setConditions_of_notMem {type : String}
    (h : type ∉ news.map Condition.type) :
    findStatusCondition (setConditions now news conditions) type =
      findStatusCondition conditions type :=
  lookup_upsertAll_of_notMem transition_keyed (types_entries ▸ h) conditions

theorem nodup_setConditions (h : (conditions.map Condition.type).Nodup) :
    ((setConditions now news conditions).map Condition.type).Nodup :=
  nodup_upsertAll transition_keyed h

theorem filter_setConditions {q : String → Bool} (hq : ∀ new ∈ news, q new.type = false) :
    (setConditions now news conditions).filter (fun c => q c.type) =
      conditions.filter fun c => q c.type := by
  refine filter_upsertAll transition_keyed (fun e he => ?_) conditions
  obtain ⟨new, hnew, rfl⟩ := List.mem_map.mp he
  exact hq new hnew

/-- Setting the same conditions again changes nothing, the transition times included. -/
theorem setConditions_again (hn : (news.map Condition.type).Nodup) (later : Time) :
    setConditions later news (setConditions now news conditions) =
      setConditions now news conditions := by
  refine upsertAll_eq_self fun e he => ?_
  obtain ⟨new, hnew, rfl⟩ := List.mem_map.mp he
  refine ⟨_, findStatusCondition_setConditions_of_mem hn hnew, ?_⟩
  simp [transition]

end setConditions

def Condition.timeless (c : Condition) : Condition := { c with lastTransitionTime := 0 }

theorem timeless_setStatusCondition (now now' : Time) (new : Condition) {cs cs' : List Condition}
    (h : cs.map Condition.timeless = cs'.map Condition.timeless) :
    (setStatusCondition now cs new).map Condition.timeless =
      (setStatusCondition now' cs' new).map Condition.timeless := by
  induction cs generalizing cs' with
  | nil =>
    obtain rfl := List.map_eq_nil_iff.mp h.symm
    rfl
  | cons c cs ih =>
    obtain ⟨c', cs', rfl, hc, hcs⟩ := List.map_eq_cons_iff.mp h.symm
    have htype : (Condition.timeless c').type = (Condition.timeless c).type := by rw [hc]
    change c'.type = c.type at htype
    simp only [setStatusCondition, htype]
    split
    · rw [List.map_cons, List.map_cons, hcs]
      rfl
    · rw [List.map_cons, List.map_cons, hc, ih hcs.symm]

/-- The time of a write shows in the transition times only. -/
theorem timeless_setConditions (now now' : Time) (news conditions : List Condition) :
    (setConditions now news conditions).map Condition.timeless =
      (setConditions now' news conditions).map Condition.timeless := by
  rw [setConditions_eq, setConditions_eq]
  suffices h : ∀ cs cs' : List Condition, cs.map Condition.timeless = cs'.map Condition.timeless →
      (news.foldl (setStatusCondition now) cs).map Condition.timeless =
        (news.foldl (setStatusCondition now') cs').map Condition.timeless from h _ _ rfl
  induction news with
  | nil => exact fun _ _ h => h
  | cons new news ih => exact fun _ _ h => ih _ _ (timeless_setStatusCondition now now' new h)

/-! ## What the writers set -/

def lifecycleConditions (ready configPending error : ConditionStatus) (reason : String) :
    List Condition :=
  [{ type := "Ready", status := ready, reason := reason },
    { type := "ConfigPending", status := configPending, reason := reason },
    { type := "Error", status := error, reason := reason }]

theorem setLifecycleConditions_eq (now : Time) (conditions : List Condition)
    (ready configPending error : ConditionStatus) (reason : String) :
    setLifecycleConditions now conditions ready configPending error reason =
      setConditions now (lifecycleConditions ready configPending error reason) conditions := by
  rw [setConditions_eq]
  rfl

/-- The active config is finished and reports that it is Ready. -/
def settled (active : RedkeyConfig) : Bool :=
  isTerminalConfigPhase active.phase && active.status.status == clusterStatusReady

/-- The nine conditions that `aggregateConditions` sets. -/
def aggregatedConditions (active : RedkeyConfig) : List Condition :=
  lifecycleConditions (conditionStatus (isConfigReady active))
    (conditionStatus (!isTerminalConfigPhase active.phase))
    (conditionStatus (hasConfigError active)) "StatusAggregated" ++
  healthConditionTypes.map (healthCondition (settled active) active)

theorem aggregateConditions_eq (now : Time) (existing : List Condition) (active : RedkeyConfig) :
    aggregateConditions now existing active =
      setConditions now (aggregatedConditions active) existing := by
  rw [setConditions_eq, aggregatedConditions, List.foldl_append, List.foldl_map]
  rfl

def lifecycleTypes : List String := ["Ready", "ConfigPending", "Error"]

/-- The conditions that the operator manages. -/
def managedTypes : List String := lifecycleTypes ++ healthConditionTypes

@[simp] theorem type_healthCondition (b : Bool) (active : RedkeyConfig) (type : String) :
    (healthCondition b active type).type = type := by
  unfold healthCondition
  split <;> rfl

theorem types_aggregatedConditions (active : RedkeyConfig) :
    (aggregatedConditions active).map Condition.type = managedTypes := by
  have hhealth : healthConditionTypes.map (fun t => (healthCondition (settled active) active t).type) =
      healthConditionTypes := by
    simp only [type_healthCondition, List.map_id']
  rw [aggregatedConditions, List.map_append, List.map_map]
  exact congrArg (lifecycleTypes ++ ·) hhealth

theorem nodup_managedTypes : managedTypes.Nodup := by decide

theorem health_notMem_lifecycle {type : String} (h : type ∈ healthConditionTypes) :
    type ∉ lifecycleTypes := by
  revert type
  decide

/-! ## The phase -/

/-- The lifecycle condition that is True in a phase. -/
def trueCondition : RedkeyPhase → String
  | .ready => "Ready"
  | .error => "Error"
  | _ => "ConfigPending"

/-- The phase that an active config stands for. -/
def configsPhase (active : RedkeyConfig) : RedkeyPhase :=
  if isTerminalConfigPhase active.phase = false then .configuring
  else if active.status.status = clusterPhaseError then .error
  else .ready

/-- The lifecycle conditions of a phase: its own is True, the others are False. -/
def lifecycleOf (phase : RedkeyPhase) (reason : String) : List Condition :=
  lifecycleTypes.map fun type =>
    { type := type, status := conditionStatus (type == trueCondition phase), reason := reason }

theorem aggregated_lifecycle (active : RedkeyConfig) :
    lifecycleConditions (conditionStatus (isConfigReady active))
      (conditionStatus (!isTerminalConfigPhase active.phase))
      (conditionStatus (hasConfigError active)) "StatusAggregated" =
    lifecycleOf (configsPhase active) "StatusAggregated" := by
  unfold isConfigReady hasConfigError configsPhase
  cases isTerminalConfigPhase active.phase with
  | false => rfl
  | true =>
    by_cases h : active.status.status = clusterPhaseError
    · simp [h, lifecycleOf, lifecycleTypes, lifecycleConditions, trueCondition]
    · have hb : (active.status.status == clusterPhaseError) = false := by simpa using h
      simp [h, hb, bne, lifecycleOf, lifecycleTypes, lifecycleConditions, trueCondition]

/-- The phase is told by the lifecycle condition that is True. -/
theorem computePhaseFromConditions_eq {conditions : List Condition} {phase : RedkeyPhase}
    (hp : phase ≠ .unset) (h : ∀ type ∈ lifecycleTypes,
      (findStatusCondition conditions type).map Condition.status =
        some (conditionStatus (type == trueCondition phase))) :
    computePhaseFromConditions conditions = phase := by
  obtain ⟨c, hc, hcs⟩ := Option.map_eq_some_iff.mp (h "Ready" (by decide))
  obtain ⟨e, he, hes⟩ := Option.map_eq_some_iff.mp (h "Error" (by decide))
  simp only [computePhaseFromConditions, hc, he, Option.any_some, hcs, hes]
  cases phase with
  | unset => exact absurd rfl hp
  | _ => rfl

/-! ## The two writers -/

/-- A status write: the Redkey is the one the writer has read. -/
inductive StatusWrite where
  | aggregate (latest : Redkey) (active : RedkeyConfig) (observedGeneration : Nat)
  | scaledToZero (cluster : Redkey)

namespace StatusWrite

/-- The status written over `status`. -/
def apply (now : Time) (status : RedkeyStatus) : StatusWrite → RedkeyStatus
  | .aggregate latest active g => aggregatedStatus now { latest with status := status } active g
  | .scaledToZero cluster => scaledToZeroStatus now { cluster with status := status }

def sets : StatusWrite → List Condition
  | .aggregate _ active _ => aggregatedConditions active
  | .scaledToZero _ => lifecycleConditions .true .false .false "ScaledToZero"

def phase : StatusWrite → RedkeyPhase
  | .aggregate _ active _ => configsPhase active
  | .scaledToZero _ => .ready

variable (w : StatusWrite) (now : Time) (status : RedkeyStatus)

theorem conditions_apply :
    (w.apply now status).conditions = setConditions now w.sets status.conditions := by
  cases w with
  | aggregate latest active g => exact aggregateConditions_eq now _ active
  | scaledToZero cluster => exact setLifecycleConditions_eq now _ _ _ _ _

theorem types_sets : (w.sets.map Condition.type).Sublist managedTypes := by
  cases w with
  | aggregate latest active g => exact (types_aggregatedConditions active) ▸ List.Sublist.refl _
  | scaledToZero cluster => exact List.sublist_append_left lifecycleTypes healthConditionTypes

theorem nodup_sets : (w.sets.map Condition.type).Nodup := w.types_sets.nodup nodup_managedTypes

theorem mem_managedTypes {new : Condition} (h : new ∈ w.sets) : new.type ∈ managedTypes :=
  w.types_sets.subset (List.mem_map_of_mem h)

theorem phase_ne_unset : w.phase ≠ .unset := by
  cases w with
  | aggregate latest active g =>
    show configsPhase active ≠ .unset
    unfold configsPhase
    split
    · exact nofun
    · split <;> exact nofun
  | scaledToZero cluster => exact nofun

theorem lifecycle_sets {type : String} (h : type ∈ lifecycleTypes) :
    ∃ new ∈ w.sets, new.type = type ∧
      new.status = conditionStatus (type == trueCondition w.phase) := by
  have hmem : ∀ phase reason, ∃ new ∈ lifecycleOf phase reason, new.type = type ∧
      new.status = conditionStatus (type == trueCondition phase) := fun _ _ =>
    ⟨_, List.mem_map.mpr ⟨type, h, rfl⟩, rfl, rfl⟩
  cases w with
  | aggregate latest active g =>
    obtain ⟨new, hnew, hs⟩ := hmem (configsPhase active) "StatusAggregated"
    exact ⟨new, List.mem_append_left _ (aggregated_lifecycle active ▸ hnew), hs⟩
  | scaledToZero cluster => exact hmem .ready "ScaledToZero"

theorem lifecycle_apply : ∀ type ∈ lifecycleTypes,
    (findStatusCondition (w.apply now status).conditions type).map Condition.status =
      some (conditionStatus (type == trueCondition w.phase)) := by
  intro type h
  obtain ⟨new, hnew, rfl, hs⟩ := w.lifecycle_sets h
  rw [conditions_apply, findStatusCondition_setConditions_of_mem w.nodup_sets hnew, ← hs]
  rfl

theorem computePhase_apply : computePhaseFromConditions (w.apply now status).conditions = w.phase :=
  computePhaseFromConditions_eq w.phase_ne_unset (w.lifecycle_apply now status)

theorem phase_apply : (w.apply now status).phase = w.phase := by
  cases w with
  | aggregate latest active g => exact computePhase_apply (.aggregate latest active g) now status
  | scaledToZero cluster => rfl

end StatusWrite

/-! ## Sequences of writes -/

/-- The status after a sequence of writes, each over the one before. -/
def replay (status : RedkeyStatus) (writes : List (Time × StatusWrite)) : RedkeyStatus :=
  writes.foldl (fun s w => w.2.apply w.1 s) status

theorem replay_concat (status : RedkeyStatus) (writes : List (Time × StatusWrite))
    (w : Time × StatusWrite) :
    replay status (writes ++ [w]) = w.2.apply w.1 (replay status writes) := by
  simp [replay]

def conditionStatusOf (type : String) (status : RedkeyStatus) : Option ConditionStatus :=
  (findStatusCondition status.conditions type).map Condition.status

/-- `t` is the time of the last write that changed the status of a condition. -/
def LastChanged (type : String) (status : RedkeyStatus) (writes : List (Time × StatusWrite))
    (t : Time) : Prop :=
  ∃ before w after, writes = before ++ (t, w) :: after ∧
    conditionStatusOf type (replay status (before ++ [(t, w)])) ≠
      conditionStatusOf type (replay status before) ∧
    ∀ mid, mid <+: after → conditionStatusOf type (replay status (before ++ (t, w) :: mid)) =
      conditionStatusOf type (replay status (before ++ [(t, w)]))

section LastChanged
variable {type : String} {status : RedkeyStatus} {writes : List (Time × StatusWrite)} {t : Time}

theorem LastChanged.concat (h : LastChanged type status writes t) {w : Time × StatusWrite}
    (hw : conditionStatusOf type (replay status (writes ++ [w])) =
      conditionStatusOf type (replay status writes)) :
    LastChanged type status (writes ++ [w]) t := by
  obtain ⟨before, v, after, rfl, hne, hmid⟩ := h
  refine ⟨before, v, after ++ [w], by simp, hne, fun mid hm => ?_⟩
  rcases List.prefix_concat_iff.mp hm with rfl | hm
  · rw [← hmid after List.prefix_rfl, ← hw]
    simp
  · exact hmid mid hm

theorem lastChanged_last {w : StatusWrite}
    (hw : conditionStatusOf type (replay status (writes ++ [(t, w)])) ≠
      conditionStatusOf type (replay status writes)) :
    LastChanged type status (writes ++ [(t, w)]) t := by
  refine ⟨writes, w, [], rfl, hw, fun mid hm => ?_⟩
  rw [List.prefix_nil.mp hm]

end LastChanged

/-- What a sequence of writes keeps of the conditions it starts from. -/
structure Tidy (foreign : List Condition) (writes : List (Time × StatusWrite))
    (status : RedkeyStatus) : Prop where
  distinct : (status.conditions.map Condition.type).Nodup
  others : status.conditions.filter (fun c => c.type ∉ managedTypes) = foreign
  times : ∀ c ∈ status.conditions, c.type ∈ managedTypes →
    LastChanged c.type { conditions := foreign } writes c.lastTransitionTime

/-- What holds of the status after the write `last`. -/
structure Coherent (foreign : List Condition) (writes : List (Time × StatusWrite))
    (last : StatusWrite) (status : RedkeyStatus) : Prop extends Tidy foreign writes status where
  lifecycle : ∀ type ∈ lifecycleTypes,
    conditionStatusOf type status = some (if type = trueCondition last.phase then .true else .false)
  phase : status.phase = last.phase
  computed : status.phase = computePhaseFromConditions status.conditions

theorem transition_time (now : Time) (new : Condition) (old : Option Condition) :
    (∃ d, old = some d ∧ d.status = new.status ∧
      (transition now new old).lastTransitionTime = d.lastTransitionTime) ∨
      (old.map Condition.status ≠ some new.status ∧
        (transition now new old).lastTransitionTime = now) := by
  cases old with
  | none => exact .inr ⟨nofun, rfl⟩
  | some d =>
    by_cases h : d.status = new.status
    · exact .inl ⟨d, rfl, h, if_pos h⟩
    · exact .inr ⟨fun he => h (Option.some.inj he), if_neg h⟩

theorem Tidy.write {foreign : List Condition} {writes : List (Time × StatusWrite)}
    (h : Tidy foreign writes (replay { conditions := foreign } writes)) (w : Time × StatusWrite) :
    Tidy foreign (writes ++ [w]) (replay { conditions := foreign } (writes ++ [w])) := by
  obtain ⟨now, w⟩ := w
  have hrep := replay_concat { conditions := foreign } writes (now, w)
  have hcs : (replay { conditions := foreign } (writes ++ [(now, w)])).conditions =
      setConditions now w.sets (replay { conditions := foreign } writes).conditions := by
    rw [hrep]
    exact w.conditions_apply now _
  refine ⟨?_, ?_, fun c hc hm => ?_⟩
  · rw [hcs]
    exact nodup_setConditions h.distinct
  · rw [hcs]
    refine Eq.trans (filter_setConditions (q := fun type => type ∉ managedTypes) fun new hnew => ?_)
      h.others
    simpa using w.mem_managedTypes hnew
  · have hfind : findStatusCondition (replay { conditions := foreign } (writes ++ [(now, w)])).conditions
        c.type = some c := by
      refine lookup_of_mem ?_ hc
      rw [hcs]
      exact nodup_setConditions h.distinct
    -- a condition in the old list changed last when it did there, if it has not changed now
    have kept : ∀ d, findStatusCondition (replay { conditions := foreign } writes).conditions c.type =
        some d → d.status = c.status → d.lastTransitionTime = c.lastTransitionTime →
        LastChanged c.type { conditions := foreign } (writes ++ [(now, w)]) c.lastTransitionTime := by
      intro d hd hs ht
      have hlook : lookup Condition.type c.type _ = some d := hd
      obtain ⟨hmem, htype⟩ := lookup_some hlook
      have := h.times d hmem (htype ▸ hm)
      rw [htype, ht] at this
      refine this.concat ?_
      rw [conditionStatusOf, conditionStatusOf, hfind, hd, Option.map_some, Option.map_some, hs]
    by_cases hset : c.type ∈ w.sets.map Condition.type
    · obtain ⟨new, hnew, htype⟩ := List.mem_map.mp hset
      have hc' : transition now new
          (findStatusCondition (replay { conditions := foreign } writes).conditions c.type) = c := by
        rw [hcs, ← htype, findStatusCondition_setConditions_of_mem w.nodup_sets hnew, htype] at hfind
        exact Option.some.inj hfind
      have hstatus : new.status = c.status := by rw [← hc']; rfl
      obtain ⟨d, hd, hs, ht⟩ | ⟨hne, ht⟩ := transition_time now new
        (findStatusCondition (replay { conditions := foreign } writes).conditions c.type)
      · rw [hc'] at ht
        exact kept d hd (hs.trans hstatus) ht.symm
      · rw [hc'] at ht
        rw [ht]
        refine lastChanged_last fun he => hne ?_
        rw [conditionStatusOf, hfind] at he
        rw [hstatus]
        exact he.symm
    · rw [hcs, findStatusCondition_setConditions_of_notMem hset] at hfind
      exact kept c hfind rfl rfl

theorem tidy_replay {foreign : List Condition} (hd : (foreign.map Condition.type).Nodup)
    (hf : ∀ c ∈ foreign, c.type ∉ managedTypes) (writes : List (Time × StatusWrite)) :
    Tidy foreign writes (replay { conditions := foreign } writes) := by
  induction writes using List.reverseRecOn with
  | nil =>
    refine ⟨hd, List.filter_eq_self.mpr fun c hc => ?_, fun c hc hm => absurd hm (hf c hc)⟩
    simpa using hf c hc
  | append_singleton writes w ih => exact ih.write w

/-- The last write decides the lifecycle conditions and the phase. -/
theorem Tidy.coherent {foreign : List Condition} {writes : List (Time × StatusWrite)} {now : Time}
    {last : StatusWrite} (h : Tidy foreign (writes ++ [(now, last)])
      (replay { conditions := foreign } (writes ++ [(now, last)]))) :
    Coherent foreign (writes ++ [(now, last)]) last
      (replay { conditions := foreign } (writes ++ [(now, last)])) := by
  refine ⟨h, fun type ht => ?_, ?_, ?_⟩
  · rw [replay_concat, conditionStatusOf, last.lifecycle_apply now _ type ht]
    by_cases he : type = trueCondition last.phase
    · rw [if_pos he, beq_iff_eq.mpr he]
      rfl
    · rw [if_neg he, beq_eq_false_iff_ne.mpr he]
      rfl
  · rw [replay_concat]
    exact last.phase_apply now _
  · rw [replay_concat, last.phase_apply, last.computePhase_apply]

/-- After every write of a sequence, of either writer and from any configs: the
conditions have distinct types, exactly one lifecycle condition is True, the
phase says which and depends on the last write only, conditions of other types
are as at the start, and the transition times are right. -/
theorem phase_and_conditions_agree {foreign : List Condition}
    (hd : (foreign.map Condition.type).Nodup) (hf : ∀ c ∈ foreign, c.type ∉ managedTypes)
    (writes : List (Time × StatusWrite)) (now : Time) (last : StatusWrite) :
    Coherent foreign (writes ++ [(now, last)]) last
      (replay { conditions := foreign } (writes ++ [(now, last)])) :=
  (tidy_replay hd hf _).coherent

def emptyRedkey : Redkey :=
  { key := ⟨"ns", "rk"⟩
    uid := "u1"
    generation := 1
    resourceVersion := 1
    spec := { primaries := 0, robin := { image := "robin" } } }

/-- Conditions of other controllers, before the writes. -/
def foreignConditions : List Condition :=
  [{ type := "Paused", status := .true, reason := "User" },
    { type := "Audited", status := .false, reason := "Policy", lastTransitionTime := 2 }]

/-- The status is taken from a config in progress, and then from the same config when
it has been applied. -/
def handover : List (Time × StatusWrite) :=
  [(4, .aggregate emptyRedkey { newConfig emptyRedkey 1 with
      status := { configPhase := .inProgress } } 1),
    (6, .aggregate emptyRedkey { newConfig emptyRedkey 1 with
      status := { configPhase := .applied, status := clusterStatusReady } } 1)]

/-- At last the scale-down is reported. Ready has been True since the config was
applied, and the conditions of others are untouched. -/
theorem phase_and_conditions_agree_sample :
    Coherent foreignConditions (handover ++ [(9, .scaledToZero emptyRedkey)])
        (.scaledToZero emptyRedkey)
        (replay { conditions := foreignConditions }
          (handover ++ [(9, .scaledToZero emptyRedkey)])) ∧
      (replay { conditions := foreignConditions }
        (handover ++ [(9, .scaledToZero emptyRedkey)])).conditions.map
          (fun c => (c.type, c.lastTransitionTime)) =
        [("Paused", 0), ("Audited", 2), ("Ready", 6), ("ConfigPending", 6), ("Error", 4),
          ("Healthy", 4), ("MembershipHealthy", 4), ("SlotsCovered", 4), ("SlotsBalanced", 4),
          ("ReplicasBalanced", 4), ("ClusterCheckPassing", 4)] :=
  ⟨phase_and_conditions_agree (by decide) (by decide) handover 9 (.scaledToZero emptyRedkey),
    by decide⟩

end RedkeyOperator.Controller
