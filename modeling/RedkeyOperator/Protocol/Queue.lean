import RedkeyOperator.Data.JobQueue
import RedkeyOperator.Protocol.Newest

/-! # The configs as a queue of jobs

Abstractly the operator submits snapshots of the spec to a queue, and Robin is the
worker that takes them from it. The stored configs show the state of the queue, and
what happens to configs are its operations: every run of the protocol is a run of
the queue. -/
namespace RedkeyOperator.Protocol
open RedkeyOperator.Api RedkeyOperator.Kube RedkeyOperator.Interleave RedkeyOperator.Controller
open RedkeyOperator.Data (JobQueue)
open RedkeyOperator.Data.JobQueue

variable {T : Terms server} {req : NamespacedName} {w₀ w w' : World} {p : Point}
  {r : RedkeyReconciler} {s : State server Result} {c : RedkeyConfig}
  {configs before after : List RedkeyConfig}

/-! ## Abstraction -/

/-- What is to be done, whatever has become of it. -/
def job (c : RedkeyConfig) : RedkeyConfig := { c with status := {} }

def inProgress (c : RedkeyConfig) : Bool := c.phase == .inProgress

def queueOf (configs : List RedkeyConfig) : JobQueue RedkeyConfig where
  ended := (configs.filter finished).map job
  active := ((configs.filter inProgress).map job).head?
  waiting := (configs.filter queued).map job

def opOf : Happening → Option (Op RedkeyConfig)
  | .created c => some (.submit (job c))
  | .moved c => match c.phase with
    | .inProgress => some (.start (job c))
    | .applied => some (.finish (job c))
    | .superseded => some (.skip (job c))
    | .unset | .pending => none
  | .deleted c _ => some (.forget (job c))
  | .collected _ => none

def opsOf (journal : List Happening) : List (Op RedkeyConfig) := journal.filterMap opOf

theorem job_status (c : RedkeyConfig) (s : RedkeyConfigStatus) : job { c with status := s } = job c :=
  rfl

theorem not_queued_of_finished (h : finished c = true) : queued c = false := by
  cases hq : queued c with
  | false => rfl
  | true =>
    rw [not_finished_of_queued hq] at h
    cases h

theorem not_inProgress (h : finished c = true ∨ queued c = true) : inProgress c = false := by
  cases hp : c.phase with
  | inProgress => simp [finished, queued, isTerminalConfigPhase, isQueuedPhase, hp] at h
  | _ => simp [inProgress, hp]

/-- A queue in which everything before `c` has ended and everything after it waits. -/
theorem queueOf_around (hb : ∀ d ∈ before, finished d = true) (ha : ∀ d ∈ after, queued d = true) :
    queueOf (before ++ c :: after) =
      if finished c then ⟨before.map job ++ [job c], none, after.map job⟩
      else if c.phase = .inProgress then ⟨before.map job, some (job c), after.map job⟩
      else ⟨before.map job, none, job c :: after.map job⟩ := by
  have hbf : before.filter finished = before := List.filter_eq_self.mpr hb
  have hbq : before.filter queued = [] :=
    List.filter_eq_nil_iff.mpr fun d hd => by simp [not_queued_of_finished (hb d hd)]
  have hbp : before.filter inProgress = [] :=
    List.filter_eq_nil_iff.mpr fun d hd => by simp [not_inProgress (.inl (hb d hd))]
  have haf : after.filter finished = [] :=
    List.filter_eq_nil_iff.mpr fun d hd => by simp [not_finished_of_queued (ha d hd)]
  have haq : after.filter queued = after := List.filter_eq_self.mpr ha
  have hap : after.filter inProgress = [] :=
    List.filter_eq_nil_iff.mpr fun d hd => by simp [not_inProgress (.inr (ha d hd))]
  simp only [queueOf, List.filter_append, List.filter_cons, hbf, hbq, hbp, haf, haq, hap]
  cases hp : c.phase <;>
    simp [finished, queued, inProgress, isTerminalConfigPhase, isQueuedPhase, hp]

/-! ## One step -/

/-- A stored config, with those before it and those after it. -/
theorem exists_around {st : Store} {key : NamespacedName}
    (hk : (st.configs.map RedkeyConfig.key).Nodup) (hc : st.config key = some c) :
    ∃ before after, st.configs = before ++ c :: after ∧
      (∀ s, (st.setConfigStatus key s).configs = before ++ { c with status := s } :: after) ∧
      (st.removeConfig key).configs = before ++ after := by
  obtain ⟨hmem, rfl⟩ := Store.config_mem hc
  obtain ⟨before, after, hsplit⟩ := List.append_of_mem hmem
  rw [hsplit, List.map_append, List.map_cons] at hk
  have hne : ∀ d ∈ before ++ after, d.key ≠ c.key := by
    intro d hd he
    have hnd := (List.nodup_middle.mp hk)
    rw [List.nodup_cons, ← List.map_append] at hnd
    exact hnd.1 (he ▸ List.mem_map_of_mem hd)
  have hb : ∀ d ∈ before, d.key ≠ c.key := fun d hd => hne d (List.mem_append_left _ hd)
  have ha : ∀ d ∈ after, d.key ≠ c.key := fun d hd => hne d (List.mem_append_right _ hd)
  refine ⟨before, after, hsplit, fun s => ?_, ?_⟩
  · have hmap : ∀ l : List RedkeyConfig, (∀ d ∈ l, d.key ≠ c.key) →
        l.map (fun d => if d.key == c.key then { d with status := s } else d) = l := by
      intro l hl
      refine (List.map_congr_left fun d hd => ?_).trans (List.map_id l)
      simp [hl d hd]
    rw [Store.setConfigStatus, hsplit, List.map_append, List.map_cons, hmap before hb, hmap after ha]
    simp
  · have hfilter : ∀ l : List RedkeyConfig, (∀ d ∈ l, d.key ≠ c.key) →
        l.filter (fun d => d.key != c.key) = l := by
      intro l hl
      exact List.filter_eq_self.mpr fun d hd => by simpa using hl d hd
    rw [Store.removeConfig, hsplit, List.filter_append, List.filter_cons_of_neg (by simp),
      hfilter before hb, hfilter after ha]

/-- Around a config that is not finished the queue is in order. -/
theorem Shaped.after_unfinished (h : Shaped (before ++ c :: after)) (hc : finished c = false) :
    ∀ d ∈ after, queued d = true := by
  intro d hd
  have := (List.pairwise_cons.mp (List.pairwise_append.mp h).2.1).1 d hd
  exact this.resolve_right (by simp [hc])

theorem Shaped.before_unqueued (h : Shaped (before ++ c :: after)) (hc : queued c = false) :
    ∀ d ∈ before, finished d = true := by
  intro d hd
  exact ((List.pairwise_append.mp h).2.2 d hd c List.mem_cons_self).resolve_left (by simp [hc])

/-- What comes before the next config in the queue has ended. -/
theorem isNext_before (ha : Ascending (before ++ c :: after))
    (hn : isNext (before ++ c :: after) c = true) : ∀ d ∈ before, finished d = true := by
  intro d hd
  have hd' := List.all_eq_true.mp hn d (List.mem_append_left _ hd)
  have hlt := (List.pairwise_append.mp ha).2.2 d hd c List.mem_cons_self
  simp only [Bool.and_eq_true, bne_iff_ne, Bool.or_eq_true, Bool.not_eq_true',
    decide_eq_true_eq] at hd'
  exact finished_of_not_queued (hd'.2.resolve_right (by omega)) hd'.1

theorem map_filter_status {s : RedkeyConfigStatus} {f : RedkeyConfig → Bool}
    (hf : f { c with status := s } = f c) :
    ((before ++ { c with status := s } :: after).filter f).map job =
      ((before ++ c :: after).filter f).map job := by
  rw [List.filter_append, List.filter_append, List.filter_cons, List.filter_cons, hf]
  split
  · simp [job]
  · rfl

/-- A status that leaves a config where it is leaves the queue as it is. -/
theorem queueOf_status {s : RedkeyConfigStatus} (hs : s.configPhase = c.phase ∨
      queued c = true ∧ isQueuedPhase s.configPhase = true) :
    queueOf (before ++ { c with status := s } :: after) = queueOf (before ++ c :: after) := by
  have hf : finished { c with status := s } = finished c := by
    obtain h | ⟨hq, h⟩ := hs
    · simp [finished, RedkeyConfig.phase, h]
    · rw [not_finished_of_queued hq, not_finished_of_queued (c := { c with status := s }) h]
  have hq : queued { c with status := s } = queued c := by
    obtain h | ⟨hq, h⟩ := hs
    · simp [queued, RedkeyConfig.phase, h]
    · rw [hq]
      exact h
  have hp : inProgress { c with status := s } = inProgress c := by
    obtain h | ⟨hq, h⟩ := hs
    · simp [inProgress, RedkeyConfig.phase, h]
    · rw [not_inProgress (.inr hq), not_inProgress (c := { c with status := s }) (.inr h)]
  rw [queueOf, map_filter_status hf, map_filter_status hq, map_filter_status hp]
  rfl

/-- The stored configs are the queue that the journal tells of. -/
def IsQueue (w : World) : Prop := History (opsOf w.journal) (queueOf w.store.configs)

theorem IsQueue.same (h : IsQueue w) (hc : w'.store.configs = w.store.configs)
    (hj : w'.journal = w.journal) : IsQueue w' := by
  rw [IsQueue, hc, hj]
  exact h

/-- Robin is the worker of the queue. -/
theorem IsQueue.robin {key : NamespacedName} {s : RedkeyConfigStatus} (h : IsQueue w)
    (ho : Orderly w) (hk : (w.store.configs.map RedkeyConfig.key).Nodup)
    (hc : w.store.config key = some c) (hm : robinMay w.store.configs c s.configPhase = true) :
    IsQueue (w.commit (w.store.setConfigStatus key s) (moves c s)) := by
  obtain ⟨before, after, hsplit, hset, -⟩ := exists_around hk hc
  have hshaped := ho.shaped
  have hasc := ho.ascending
  rw [IsQueue, World.journal_commit, World.store_commit, hset]
  rw [IsQueue, hsplit] at h
  rw [hsplit] at hshaped hasc hm
  by_cases he : c.phase = s.configPhase
  · rw [moves, if_pos he, List.nil_append, queueOf_status (.inl he.symm)]
    exact h
  rw [moves, if_neg he, List.singleton_append, opsOf, List.filterMap_cons, ← opsOf]
  obtain hs | ⟨hq, hs⟩ | ⟨hp, hs⟩ | ⟨hq, hn, hs⟩ := robinMay_cases hm
  · exact absurd hs.symm he
  · -- still queued
    have hop : opOf (.moved { c with status := s }) = none := by
      cases hsp : s.configPhase <;> simp_all [opOf, RedkeyConfig.phase, isQueuedPhase]
    rw [hop, queueOf_status (.inr ⟨hq, hs⟩)]
    exact h
  · -- the active one is done
    have hcf : finished c = false := by simp [finished, isTerminalConfigPhase, hp]
    have hb := hshaped.before_unqueued (by simp [queued, isQueuedPhase, hp])
    have ha := hshaped.after_unfinished hcf
    have hop : opOf (.moved { c with status := s }) = some (.finish (job c)) := by
      simp [opOf, RedkeyConfig.phase, hs, job]
    rw [queueOf_around hb ha, if_neg (by simp [hcf]), if_pos hp] at h
    rw [hop, queueOf_around hb ha,
      if_pos (finished_of_applied (c := { c with status := s }) hs), job_status]
    exact .cons h (.finish _)
  · -- the first of those that wait
    have hcf := not_finished_of_queued hq
    have hcp : c.phase ≠ .inProgress := by
      intro hp
      simp [queued, isQueuedPhase, hp] at hq
    have hb := isNext_before hasc hn
    have ha := hshaped.after_unfinished hcf
    rw [queueOf_around hb ha, if_neg (by simp [hcf]), if_neg hcp] at h
    obtain hs | hs := hs
    · have hop : opOf (.moved { c with status := s }) = some (.start (job c)) := by
        simp [opOf, RedkeyConfig.phase, hs, job]
      rw [hop, queueOf_around hb ha, if_neg (by simp [finished, isTerminalConfigPhase,
        RedkeyConfig.phase, hs]), if_pos hs, job_status]
      exact .cons h (.start _)
    · have hop : opOf (.moved { c with status := s }) = some (.skip (job c)) := by
        simp [opOf, RedkeyConfig.phase, hs, job]
      rw [hop, queueOf_around hb ha, if_pos (by simp [finished, isTerminalConfigPhase,
        RedkeyConfig.phase, hs]), job_status]
      -- another one waits behind it
      have hlater : hasLaterQueued (before ++ c :: after) c = true :=
        robinMay_superseded (hs ▸ hm) (hs ▸ he)
      cases after with
      | nil =>
        rw [superseded_not_last hasc (by simp)] at hlater
        cases hlater
      | cons d ds => exact .cons h (.skip _ _)

theorem queueOf_concat (hc : queued c = true) :
    queueOf (configs ++ [c]) =
      { queueOf configs with waiting := (queueOf configs).waiting ++ [job c] } := by
  simp [queueOf, List.filter_append, hc, not_finished_of_queued hc,
    not_inProgress (.inr hc)]

/-- The operator submits to the queue and forgets what has ended. -/
theorem IsQueue.effect (h : IsQueue w) (ht : Tracks p w)
    (hk : (w.store.configs.map RedkeyConfig.key).Nodup) (he : Effect T req p w w') :
    IsQueue w' := by
  cases he with
  | quiet hq => exact h.same hq.configs hq.journal
  | sawRedkey => exact h.same rfl rfl
  | sawConfigs => exact h.same rfl rfl
  | updated => exact h.same rfl rfl
  | created hi =>
    obtain ⟨cluster, configs, rfl, -, rfl⟩ := hi.of_createConfig
    rw [IsQueue, World.store_commit, queueOf_concat (by rfl)]
    exact .cons h (.submit _)
  | @deleted key c o hi ok hc =>
    have hf := ht.deletes hk hi hc
    obtain ⟨before, after, hsplit, -, hremove⟩ := exists_around hk hc
    rw [IsQueue, hsplit] at h
    rw [IsQueue, World.store_commit, hremove]
    have hq : queueOf (before ++ c :: after) =
        ⟨(before.filter finished).map job ++ job c :: (after.filter finished).map job,
          (queueOf (before ++ after)).active, (queueOf (before ++ after)).waiting⟩ := by
      simp [queueOf, List.filter_append, hf, not_queued_of_finished hf,
        not_inProgress (.inl hf)]
    have hq' : queueOf (before ++ after) =
        ⟨(before.filter finished).map job ++ (after.filter finished).map job,
          (queueOf (before ++ after)).active, (queueOf (before ++ after)).waiting⟩ := by
      simp [queueOf, List.filter_append]
    rw [hq] at h
    rw [hq']
    exact .cons h (.forget _)

/-- At most one config is in progress. -/
theorem Shaped.inProgress_eq (h : Shaped configs) :
    ((configs.filter inProgress).map job).head?.toList = (configs.filter inProgress).map job := by
  have hp := h.sublist (List.filter_sublist (p := inProgress))
  have hall : ∀ c ∈ configs.filter inProgress, c.phase = .inProgress := by
    intro c hc
    simpa [inProgress] using (List.mem_filter.mp hc).2
  generalize configs.filter inProgress = l at hp hall
  cases l with
  | nil => rfl
  | cons c l =>
    cases l with
    | nil => rfl
    | cons d ds =>
      have hcp := hall c List.mem_cons_self
      have hdp := hall d (List.mem_cons_of_mem _ List.mem_cons_self)
      obtain hq | hq := (List.pairwise_cons.mp hp).1 d List.mem_cons_self
      · simp [queued, isQueuedPhase, hdp] at hq
      · simp [finished, isTerminalConfigPhase, hcp] at hq

/-! ## Runs -/

theorem Runs.isQueue (h : Runs protocol req w₀ p w) (hf : Fresh req w₀) : IsQueue w := by
  refine h.world (G := IsQueue) ?_ ?_ ?_ ?_
  · rw [IsQueue, hf.journal, hf.configs]
    exact .nil
  · intro p e w w' hr hq ok he
    have hprov := hr.provenance hf
    cases e with
    | update key spec =>
      obtain ⟨rk, -, -, rfl⟩ := env_update he
      exact hq.same rfl rfl
    | robin key s =>
      obtain ⟨c, hc, rfl⟩ := env_robin he
      exact hq.robin (hr.orderly hf).1 (hprov.keys _ w.store_mem_history) hc
        (robinMay_of_protocol ok hc)
    | collect key => exact absurd he (hprov.not_collected (hr.versions hf.versions))
  · exact fun w hq => hq.same rfl rfl
  · intro p w w' hr hq he
    exact hq.effect (hr.orderly hf).2 ((hr.provenance hf).keys _ w.store_mem_history) he

/-- In every run of the protocol of a new Redkey, with any failures, crashes and stale
reads of the Redkey but current lists, and through any number of scale-downs, the configs are a queue of which the
operator is the producer and Robin the worker: the snapshots ever created are, in
that order, those Robin has taken up or set aside and those that wait now; Robin has
applied, in order, all it has taken up but the one in progress; and what is finished
is stored until it is deleted, so nothing is lost and nothing is done twice. -/
theorem configs_are_a_queue (hf : Fresh req w₀)
    (h : Reaches protocol (reconcile r req) ⟨w₀, none⟩ s) :
    History (opsOf s.world.journal) (queueOf s.world.store.configs) ∧
      submitted (opsOf s.world.journal) =
        taken (opsOf s.world.journal) ++ (s.world.store.configs.filter queued).map job ∧
      started (opsOf s.world.journal) =
        completed (opsOf s.world.journal) ++ (s.world.store.configs.filter inProgress).map job ∧
      (completed (opsOf s.world.journal) ++ skipped (opsOf s.world.journal)).Perm
        (forgotten (opsOf s.world.journal) ++ (s.world.store.configs.filter finished).map job) := by
  obtain ⟨p, hp⟩ := reconcile_runs h
  have hq := hp.isQueue hf
  refine ⟨hq, hq.submitted_eq, ?_, hq.ended_perm⟩
  rw [← (hp.orderly hf).1.shaped.inProgress_eq]
  exact hq.started_eq

/-- The first config is applied, the second set aside for the third, and the
fourth waits while the third is in progress. -/
def fourConfigs : List (Move server) :=
  undisturbed ++ [robinMoves 1 .inProgress, robinMoves 1 .applied, scaleTo 4] ++ undisturbed ++
    [scaleTo 5] ++ undisturbed ++ [robinMoves 2 .superseded, robinMoves 3 .inProgress, scaleTo 6] ++
    undisturbed

set_option maxRecDepth 100000 in
theorem configs_are_a_queue_sample :
    ∃ s, Reaches protocol sampleReconcile ⟨sampleWorld 3, none⟩ s ∧
      (taken (opsOf s.world.journal)).map RedkeyConfig.sequence = [1, 2, 3] ∧
      (s.world.store.configs.filter queued).map RedkeyConfig.sequence = [4] ∧
      submitted (opsOf s.world.journal) =
        taken (opsOf s.world.journal) ++ (s.world.store.configs.filter queued).map job := by
  obtain ⟨s, hs, ht⟩ : ∃ s, Reaches protocol sampleReconcile ⟨sampleWorld 3, none⟩ s ∧
      (decide ((taken (opsOf s.world.journal)).map RedkeyConfig.sequence = [1, 2, 3]) &&
        decide ((s.world.store.configs.filter queued).map RedkeyConfig.sequence = [4])) = true :=
    exists_reaches_of_play fourConfigs _ (by decide +kernel)
  obtain ⟨htaken, hqueued⟩ := Bool.and_eq_true_iff.mp ht
  exact ⟨s, hs, of_decide_eq_true htaken, of_decide_eq_true hqueued,
    (configs_are_a_queue (r := ⟨60⟩) (fresh_sampleWorld 3) hs).2.1⟩

end RedkeyOperator.Protocol
