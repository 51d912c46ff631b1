import RedkeyOperator.Controller.Conditions
import RedkeyOperator.Controller.Config

/-! What the pure parts of the controller compute: the identity of a new config,
the order of a sorted list, the pruned list and the config it is aggregated
from. -/
namespace RedkeyOperator.Controller
open RedkeyOperator.Api RedkeyOperator.Kube

/-! ## New configs -/

theorem get_mergeMeta (spec override : StringMap) (k v : String) :
    (mergeMeta spec override [(k, v)]).get k = some v :=
  StringMap.get_set_self _ k v

@[simp] theorem newConfig_sequence (rk : Redkey) (seq : Nat) : (newConfig rk seq).sequence = seq := rfl

@[simp] theorem newConfig_label (rk : Redkey) (seq : Nat) :
    (newConfig rk seq).metadata.labels.get clusterLabel = some rk.key.name := get_mergeMeta _ _ _ _

theorem newConfig_annotation (rk : Redkey) (seq : Nat) :
    (newConfig rk seq).metadata.annotations.get generationAnnotation =
      some (formatInt rk.generation) := get_mergeMeta _ _ _ _

/-- The last separator splits a list in one way. -/
private theorem split_last {α : Type} {a : α} {xs xs' ys ys' : List α} (hys : a ∉ ys)
    (hys' : a ∉ ys') (h : xs ++ a :: ys = xs' ++ a :: ys') : xs = xs' ∧ ys = ys' := by
  obtain ⟨t, rfl, ht⟩ | ⟨t, rfl, ht⟩ := List.append_eq_append_iff.mp h
  · cases t with
    | nil => simpa using ht
    | cons b t => simp only [List.cons_append, List.cons.injEq] at ht; simp [ht.2] at hys
  · cases t with
    | nil => simpa [eq_comm] using ht
    | cons b t => simp only [List.cons_append, List.cons.injEq] at ht; simp [ht.2] at hys'

/-- The number of a config is what follows the last dash of its name. -/
theorem configName_injective {cluster cluster' : String} {m n : Nat}
    (h : configName cluster m = configName cluster' n) : cluster = cluster' ∧ m = n := by
  have hl := congrArg String.toList h
  simp only [configName, String.toList_append, List.append_assoc] at hl
  obtain ⟨hc, hd⟩ := split_last (dash_notMem_formatInt m) (dash_notMem_formatInt n) hl
  exact ⟨String.toList_inj.mp hc, formatInt_injective (String.toList_inj.mp hd)⟩

/-- A new config takes from the Redkey its identity, its generation and its spec. -/
theorem newConfig_congr {rk rk' : Redkey} (hk : rk.key = rk'.key) (hu : rk.uid = rk'.uid)
    (hg : rk.generation = rk'.generation) (hs : rk.spec = rk'.spec) (seq : Nat) :
    newConfig rk seq = newConfig rk' seq := by
  simp [newConfig, hk, hu, hg, hs]

/-- A config that `createNewConfig` sent for `rk`, whatever Robin made of its status. -/
def MadeFrom (rk : Redkey) (c : RedkeyConfig) : Prop :=
  c.metadata = (newConfig rk c.sequence).metadata ∧ c.spec = (newConfig rk c.sequence).spec

theorem madeFrom_newConfig (rk : Redkey) (seq : Nat) : MadeFrom rk (newConfig rk seq) := ⟨rfl, rfl⟩

namespace MadeFrom
variable {rk : Redkey} {c : RedkeyConfig}

theorem withStatus (h : MadeFrom rk c) (s : RedkeyConfigStatus) :
    MadeFrom rk { c with status := s } := h

theorem key (h : MadeFrom rk c) : c.key = ⟨rk.key.namespace_, configName rk.key.name c.sequence⟩ := by
  rw [RedkeyConfig.key, h.1]; rfl

theorem label (h : MadeFrom rk c) : c.metadata.labels.get clusterLabel = some rk.key.name := by
  rw [h.1]; exact newConfig_label _ _

theorem owner (h : MadeFrom rk c) : c.metadata.owner = some rk.uid := by rw [h.1]; rfl

theorem annotation (h : MadeFrom rk c) :
    c.metadata.annotations.get generationAnnotation = some (formatInt rk.generation) := by
  rw [h.1]; exact newConfig_annotation _ _

theorem annotated (h : MadeFrom rk c) (hg : rk.generation < 2 ^ 63) :
    annotatedGeneration c = some (rk.generation : Int) := by
  rw [annotatedGeneration, h.annotation]; exact parseInt_formatInt hg

end MadeFrom

/-- No new config is asked for only if the latest one is for a generation that
is not older, or the generation has been observed. -/
theorem needsNewConfig_eq_false {cluster : Redkey} {latestConfig : Option RedkeyConfig}
    (h : needsNewConfig cluster latestConfig = false) :
    (∃ c g, latestConfig = some c ∧ annotatedGeneration c = some g ∧
      (cluster.generation : Int) ≤ g) ∨
      cluster.generation ≤ cluster.status.observedGeneration := by
  unfold needsNewConfig at h
  split at h
  · rename_i g hg
    obtain ⟨c, hc, hg⟩ := Option.bind_eq_some_iff.mp hg
    split at h
    · exact .inl ⟨c, g, hc, hg, by assumption⟩
    · exact .inr (by simpa using h)
  · exact .inr (by simpa using h)

/-! ## Sorting -/

theorem sortBySequence_perm (items : List RedkeyConfig) : (sortBySequence items).Perm items :=
  List.perm_insertionSort _ _

theorem mem_sortBySequence {items : List RedkeyConfig} {c : RedkeyConfig} :
    c ∈ sortBySequence items ↔ c ∈ items := (sortBySequence_perm items).mem_iff

theorem sortBySequence_sorted (items : List RedkeyConfig) :
    (sortBySequence items).Pairwise fun a b => a.sequence ≤ b.sequence := by
  have : Std.Total fun a b : RedkeyConfig => a.sequence ≤ b.sequence :=
    ⟨fun a b => le_total a.sequence b.sequence⟩
  have : IsTrans RedkeyConfig fun a b => a.sequence ≤ b.sequence := ⟨fun _ _ _ => le_trans⟩
  exact List.pairwise_insertionSort _ _

/-- Configs in the order of their sequences, no two with the same one. -/
abbrev Ascending (configs : List RedkeyConfig) : Prop :=
  configs.Pairwise fun a b => a.sequence < b.sequence

/-- A relation along the list holds along the sequences. -/
theorem Ascending.rel_of_lt {configs : List RedkeyConfig} {R : RedkeyConfig → RedkeyConfig → Prop}
    (h : Ascending configs) (hR : configs.Pairwise R) {a b : RedkeyConfig} (ha : a ∈ configs)
    (hb : b ∈ configs) (hlt : a.sequence < b.sequence) : R a b := by
  obtain ⟨i, hi, rfl⟩ := List.getElem_of_mem ha
  obtain ⟨j, hj, rfl⟩ := List.getElem_of_mem hb
  rcases lt_trichotomy i j with hij | rfl | hij
  · exact List.pairwise_iff_getElem.mp hR i j hi hj hij
  · exact absurd hlt (lt_irrefl _)
  · exact absurd (List.pairwise_iff_getElem.mp h j i hj hi hij) hlt.asymm

theorem Ascending.eq_of_sequence {configs : List RedkeyConfig} (h : Ascending configs)
    {a b : RedkeyConfig} (ha : a ∈ configs) (hb : b ∈ configs) (he : a.sequence = b.sequence) :
    a = b := by
  obtain ⟨i, hi, rfl⟩ := List.getElem_of_mem ha
  obtain ⟨j, hj, rfl⟩ := List.getElem_of_mem hb
  have hij := List.pairwise_iff_getElem.mp h
  rcases lt_trichotomy i j with hlt | rfl | hgt
  · exact absurd he (hij i j hi hj hlt).ne
  · rfl
  · exact absurd he (hij j i hj hi hgt).ne'

theorem sortBySequence_ascending {items : List RedkeyConfig}
    (h : (items.map RedkeyConfig.sequence).Nodup) : Ascending (sortBySequence items) := by
  have hn := ((sortBySequence_perm items).map RedkeyConfig.sequence).nodup_iff.mpr h
  exact ((sortBySequence_sorted items).and (List.pairwise_map.mp hn)).imp fun hab =>
    lt_of_le_of_ne hab.1 hab.2

/-- Any listing of ascending configs is sorted back to them. -/
theorem sortBySequence_eq {items configs : List RedkeyConfig} (hp : items.Perm configs)
    (ha : Ascending configs) : sortBySequence items = configs := by
  have hperm := (sortBySequence_perm items).trans hp
  refine List.Perm.eq_of_pairwise ?_ (sortBySequence_sorted items) (ha.imp le_of_lt) hperm
  intro a b hma hmb hab hba
  exact ha.eq_of_sequence (hperm.mem_iff.mp hma) hmb (le_antisymm hab hba)

theorem Ascending.le_getLast {configs : List RedkeyConfig} (h : Ascending configs) {c : RedkeyConfig}
    (hl : configs.getLast? = some c) : ∀ d ∈ configs, d.sequence ≤ c.sequence := by
  obtain ⟨front, rfl⟩ := List.getLast?_eq_some_iff.mp hl
  intro d hd
  rcases List.mem_append.mp hd with hd | hd
  · exact ((List.pairwise_append.mp h).2.2 d hd c List.mem_cons_self).le
  · rw [List.mem_singleton.mp hd]

/-- The number of a new config is above those of the configs listed. -/
theorem Ascending.lt_nextSequence {configs : List RedkeyConfig} (h : Ascending configs) :
    ∀ d ∈ configs, d.sequence < nextSequence configs.getLast? := by
  intro d hd
  cases hl : configs.getLast? with
  | none => rw [List.getLast?_eq_none_iff.mp hl] at hd; cases hd
  | some c => exact Nat.lt_succ_of_le (h.le_getLast hl d hd)

/-! ## Pruning -/

/-- With an Applied config in the list, the pruned list starts at the last one. -/
theorem drop_lastAppliedIndex {configs : List RedkeyConfig}
    (h : ∃ c ∈ configs, c.phase = .applied) :
    ∃ c rest, configs.drop (lastAppliedIndex configs) = c :: rest ∧ c.phase = .applied ∧
      ∀ d ∈ rest, d.phase ≠ .applied := by
  induction configs with
  | nil => obtain ⟨c, hc, -⟩ := h; cases hc
  | cons c cs ih =>
    unfold lastAppliedIndex
    split
    · rename_i hany
      obtain ⟨d, hd, hp⟩ := List.any_eq_true.mp hany
      simpa using ih ⟨d, hd, by simpa using hp⟩
    · rename_i hany
      have hnone : ∀ d ∈ cs, d.phase ≠ .applied := fun d hd hp =>
        hany (List.any_eq_true.mpr ⟨d, hd, by simpa using hp⟩)
      obtain ⟨d, hd, hp⟩ := h
      rcases List.mem_cons.mp hd with rfl | hd
      · exact ⟨d, cs, rfl, hp, hnone⟩
      · exact absurd hp (hnone d hd)

theorem lastAppliedIndex_eq_zero {configs : List RedkeyConfig}
    (h : ∀ c ∈ configs, c.phase ≠ .applied) : lastAppliedIndex configs = 0 := by
  cases configs with
  | nil => rfl
  | cons c cs =>
    unfold lastAppliedIndex
    rw [if_neg]
    intro hany
    obtain ⟨d, hd, hp⟩ := List.any_eq_true.mp hany
    exact h d (List.mem_cons_of_mem _ hd) (by simpa using hp)

/-- Configs are deleted only in front of an Applied one. -/
theorem take_lastAppliedIndex (configs : List RedkeyConfig) :
    configs.take (lastAppliedIndex configs) = [] ∨
      ∃ a ∈ configs.drop (lastAppliedIndex configs), a.phase = .applied := by
  by_cases h : ∃ c ∈ configs, c.phase = .applied
  · obtain ⟨a, rest, hd, ha, -⟩ := drop_lastAppliedIndex h
    exact .inr ⟨a, by rw [hd]; exact List.mem_cons_self, ha⟩
  · refine .inl ?_
    rw [lastAppliedIndex_eq_zero fun c hc hp => h ⟨c, hc, hp⟩, List.take_zero]

/-! ## The active config -/

/-- The active config is the first one in progress, or else the first one. -/
theorem selectActiveConfig_split {configs : List RedkeyConfig} {active : RedkeyConfig}
    (h : selectActiveConfig configs = some active) :
    ∃ front back, configs = front ++ active :: back ∧ (∀ c ∈ front, c.phase ≠ .inProgress) ∧
      (active.phase = .inProgress ∨ front = [] ∧ ∀ c ∈ configs, c.phase ≠ .inProgress) := by
  match configs with
  | [] => cases h
  | [c] =>
    cases h
    refine ⟨[], [], rfl, by simp, ?_⟩
    by_cases hp : active.phase = .inProgress
    · exact .inl hp
    · exact .inr ⟨rfl, by simpa using hp⟩
  | c :: d :: cs =>
    simp only [selectActiveConfig, Option.some.injEq] at h
    cases hf : (c :: d :: cs).find? fun e => e.phase == .inProgress with
    | none =>
      rw [hf, Option.getD_none] at h
      subst h
      exact ⟨[], _, rfl, by simp, .inr ⟨rfl, fun e he => by simpa using List.find?_eq_none.mp hf e he⟩⟩
    | some e =>
      rw [hf, Option.getD_some] at h
      subst h
      obtain ⟨hp, front, back, he, hn⟩ := List.find?_eq_some_iff_append.mp hf
      exact ⟨front, back, he, fun c hc => by simpa using hn c hc, .inl (by simpa using hp)⟩

theorem selectActiveConfig_mem {configs : List RedkeyConfig} {active : RedkeyConfig}
    (h : selectActiveConfig configs = some active) : active ∈ configs := by
  obtain ⟨front, back, rfl, -, -⟩ := selectActiveConfig_split h
  exact List.mem_append_right _ List.mem_cons_self

/-- Without a config in progress the first one is active. -/
theorem selectActiveConfig_head {c : RedkeyConfig} {cs : List RedkeyConfig}
    (h : ∀ d ∈ c :: cs, d.phase ≠ .inProgress) : selectActiveConfig (c :: cs) = some c := by
  cases cs with
  | nil => rfl
  | cons d cs =>
    have hf : (c :: d :: cs).find? (fun e => e.phase == .inProgress) = none :=
      List.find?_eq_none.mpr fun e he => by simpa using h e he
    simp [selectActiveConfig, hf]

/-- With configs besides it, a config in progress is active. -/
theorem selectActiveConfig_inProgress {configs : List RedkeyConfig} {d : RedkeyConfig}
    (hd : d ∈ configs) (hp : d.phase = .inProgress) :
    ∃ active, selectActiveConfig configs = some active ∧ active.phase = .inProgress := by
  match configs with
  | [] => cases hd
  | [c] => rw [List.mem_singleton.mp hd] at hp; exact ⟨c, rfl, hp⟩
  | c :: e :: cs =>
    cases hf : (c :: e :: cs).find? fun e => e.phase == .inProgress with
    | none => exact absurd hp (by simpa using List.find?_eq_none.mp hf d hd)
    | some a => exact ⟨a, by simp [selectActiveConfig, hf], by simpa using List.find?_some hf⟩

/-! ## Statuses -/

/-- The phase of an aggregated status is that of the active config. -/
theorem phase_aggregatedStatus (now : Time) (latest : Redkey) (active : RedkeyConfig) (g : Nat) :
    (aggregatedStatus now latest active g).phase = configsPhase active :=
  (StatusWrite.aggregate latest active g).phase_apply now latest.status

/-- Aggregating the same config again changes only the time of the update. -/
theorem aggregatedStatus_again (now later : Time) (latest : Redkey) (active : RedkeyConfig) (g : Nat) :
    aggregatedStatus later (latest.withStatus (aggregatedStatus now latest active g)) active g =
      { aggregatedStatus now latest active g with lastUpdatedAt := some later } := by
  have hconds : aggregateConditions later (aggregatedStatus now latest active g).conditions active =
      (aggregatedStatus now latest active g).conditions := by
    simp only [aggregatedStatus, aggregateConditions_eq]
    exact setConditions_again (StatusWrite.nodup_sets (.aggregate latest active g)) later
  have hphase := phase_aggregatedStatus later
    (latest.withStatus (aggregatedStatus now latest active g)) active g
  rw [← phase_aggregatedStatus now latest active g] at hphase
  unfold aggregatedStatus at hphase ⊢
  simp only [Redkey.withStatus] at hphase ⊢
  unfold aggregatedStatus at hconds
  simp only at hconds
  rw [RedkeyStatus.mk.injEq]
  refine ⟨rfl, hphase, rfl, rfl, rfl, hconds, rfl, rfl, ?_, ?_⟩
  · split <;> rfl
  · split <;> rfl

/-- A status up to its timestamps. -/
def timeless (s : RedkeyStatus) : RedkeyStatus :=
  { s with lastUpdatedAt := none, conditions := s.conditions.map Condition.timeless }

theorem timeless_aggregatedStatus (now now' : Time) (latest : Redkey) (active : RedkeyConfig)
    (g : Nat) : timeless (aggregatedStatus now latest active g) =
      timeless (aggregatedStatus now' latest active g) := by
  have hphase := phase_aggregatedStatus now latest active g
  rw [← phase_aggregatedStatus now' latest active g] at hphase
  have hconds := timeless_setConditions now now' (aggregatedConditions active)
    latest.status.conditions
  rw [← aggregateConditions_eq, ← aggregateConditions_eq] at hconds
  unfold timeless aggregatedStatus at *
  simp only at hphase ⊢
  rw [hphase, hconds]

/-- The status of a cluster that was scaled down is told by its reason. -/
theorem reason_scaledToZeroStatus (now : Time) (cluster : Redkey) :
    ∃ c, findStatusCondition (scaledToZeroStatus now cluster).conditions "Ready" = some c ∧
      c.reason = "ScaledToZero" := by
  have hmem : { type := "Ready", status := .true, reason := "ScaledToZero" } ∈
      (StatusWrite.scaledToZero cluster).sets := List.mem_cons_self
  have hcs : (scaledToZeroStatus now cluster).conditions = _ :=
    (StatusWrite.scaledToZero cluster).conditions_apply now cluster.status
  exact ⟨_, hcs ▸ findStatusCondition_setConditions_of_mem (StatusWrite.nodup_sets _) hmem, rfl⟩

/-- An aggregated status of a storage cluster records the topology of an Applied
config with primaries, and otherwise the one recorded before. -/
theorem lastApplied_aggregatedStatus (now : Time) (latest : Redkey) (active : RedkeyConfig) (g : Nat) :
    (aggregatedStatus now latest active g).lastApplied = latest.status.lastApplied ∨
      latest.spec.ephemeral = false ∧ active.phase = .applied ∧ 0 < active.spec.primaries ∧
        (aggregatedStatus now latest active g).lastApplied = active.topology := by
  simp only [aggregatedStatus, RedkeyStatus.lastApplied, RedkeyConfig.topology]
  split
  · rename_i ht
    simp only [Bool.and_eq_true, Bool.not_eq_true', beq_iff_eq, decide_eq_true_eq] at ht
    exact .inr ⟨ht.1.1, ht.1.2, ht.2, rfl⟩
  · exact .inl rfl

end RedkeyOperator.Controller
