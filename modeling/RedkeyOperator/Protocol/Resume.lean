import RedkeyOperator.Controller.Cleanup
import RedkeyOperator.Controller.Undisturbed
import RedkeyOperator.Protocol.History

/-! # Reconciles that are cut short

While the operator is alone, every store from which a Reconcile starts fixes what
will be left in the end: the configs to keep and, up to timestamps, the status.
No call changes that, whether it succeeds, fails or has its answer lost, so a
Reconcile that was cut short anywhere is completed by the next one. -/
namespace RedkeyOperator.Protocol
open RedkeyOperator.Api RedkeyOperator.Kube RedkeyOperator.Interleave RedkeyOperator.Controller

variable {req : NamespacedName} {w w' v : World} {p q : Point} {rk cur latest : Redkey}
  {cs kept : List RedkeyConfig} {st : Store}

/-- The operator alone: reads are of the current store, calls may fail or have
their answer lost. -/
def calm : Terms server where
  env e _ := match e with
    | .collect _ => true
    | _ => false
  call := currentReads.call

theorem flawless_calm : flawless.Implies calm where
  env e w h := by cases h
  call c o w h := flawless_current.call c o w h

/-! ## Reachable worlds -/

/-- A world of the operator, between two Reconciles. -/
def Reached (req : NamespacedName) (w : World) : Prop :=
  ∃ w₀, Fresh req w₀ ∧ Runs Terms.any req w₀ .idle w

theorem implies_any {T : Terms server} : T.Implies Terms.any :=
  ⟨fun _ _ _ => rfl, fun _ _ _ _ => rfl⟩

theorem Reached.later {T : Terms server} (h : Reached req w) (hr : Runs T req w p v) :
    Reached req v := by
  obtain ⟨w₀, hf, h₀⟩ := h
  exact ⟨w₀, hf, (h₀.trans (hr.weaken implies_any)).silent .quit⟩

theorem Reached.versions (h : Reached req w) : Versions req w := by
  obtain ⟨w₀, hf, h₀⟩ := h
  exact h₀.versions hf.versions

theorem Reached.provenance (h : Reached req w) : Provenance req w := by
  obtain ⟨w₀, hf, h₀⟩ := h
  exact h₀.provenance hf

theorem Reached.configsOf (h : Reached req w) (hk : rk.key = req) :
    w.store.configsOf clusterLabel rk.key.namespace_ rk.key.name = w.store.configs := by
  rw [hk]
  exact h.provenance.configsOf h.versions w.store_mem_history

theorem Reached.freshList_perm (h : Reached req w) (hk : rk.key = req) :
    (freshList rk w.store).Perm w.store.configs := by
  rw [freshList, h.configsOf hk]
  exact sortBySequence_perm _

theorem Reached.ascending (h : Reached req w) (hk : rk.key = req) :
    Ascending (freshList rk w.store) := by
  rw [freshList, h.configsOf hk]
  exact sortBySequence_ascending (h.provenance.sequences_nodup h.versions w.store_mem_history)

/-- Whatever the order of the answer, the list is sorted in one way. -/
theorem Reached.sort_eq (h : Reached req w) (hk : rk.key = req) {items : List RedkeyConfig}
    (hp : items.Perm (w.store.configsOf clusterLabel rk.key.namespace_ rk.key.name)) :
    sortBySequence items = freshList rk w.store :=
  sortBySequence_eq (hp.trans (sortBySequence_perm _).symm) (h.ascending hk)

theorem freshList_congr (hc : w'.store.configs = w.store.configs) :
    freshList rk w'.store = freshList rk w.store := by
  simp only [freshList, Store.configsOf, hc]

/-! ## What a Reconcile aims at -/

/-- `ensureConfig` creates a config. -/
def adds (rk : Redkey) (cs : List RedkeyConfig) : Bool :=
  cs.isEmpty || needsNewConfig rk cs.getLast?

theorem creates_iff (h : rk.spec.primaries ≠ 0) : Creates rk cs ↔ adds rk cs = true := by
  rw [Creates, if_neg h, adds, Bool.or_eq_true, List.isEmpty_iff]

/-- The list that is pruned. -/
def planned (rk : Redkey) (cs : List RedkeyConfig) : List RedkeyConfig :=
  if adds rk cs then cs ++ [newConfig rk (nextSequence cs.getLast?)] else cs

/-- The configs that are left. -/
def target (rk : Redkey) (cs : List RedkeyConfig) : List RedkeyConfig :=
  (planned rk cs).drop (lastAppliedIndex (planned rk cs))

theorem planned_of_not_adds (h : adds rk cs = false) : planned rk cs = cs := by
  simp [planned, h]

theorem target_of_splits (h : adds rk cs = false) {older : List RedkeyConfig}
    (hs : Splits cs older kept) : target rk cs = kept := by
  rw [target, planned_of_not_adds h, hs.lastAppliedIndex, hs.append, List.drop_left]

theorem planned_ne_nil (rk : Redkey) (cs : List RedkeyConfig) : planned rk cs ≠ [] := by
  unfold planned
  split
  · simp
  · rename_i h
    intro he
    simp [adds, he] at h

theorem target_ne_nil (rk : Redkey) (cs : List RedkeyConfig) : target rk cs ≠ [] := by
  have hs := splits_lastApplied (planned rk cs)
  obtain ⟨hold, -⟩ | ⟨a, rest, hk, -⟩ := hs.head
  · intro he
    have happ := hs.append
    rw [hold, List.nil_append] at happ
    exact planned_ne_nil rk cs (happ.trans he)
  · rw [target, hk]
    exact List.cons_ne_nil _ _

/-- The config just created is for the generation, so no other one is. -/
theorem adds_newConfig (hg : rk.generation < 2 ^ 63) (cs : List RedkeyConfig) (seq : Nat) :
    adds rk (cs ++ [newConfig rk seq]) = false := by
  have hann := (madeFrom_newConfig rk seq).annotated hg
  simp [adds, needsNewConfig, hann]

theorem adds_withStatus (h : cs ≠ []) (now : Time) (active : RedkeyConfig) :
    adds (rk.withStatus (aggregatedStatus now rk active rk.generation)) cs = false := by
  have hempty : cs.isEmpty = false := by simpa using h
  simp only [adds, hempty, Bool.false_or, needsNewConfig, Redkey.withStatus, aggregatedStatus]
  split <;> simp

theorem adds_tail {c : RedkeyConfig} {older : List RedkeyConfig}
    (hs : Splits (c :: older ++ kept) (c :: older) kept)
    (h : adds rk (c :: older ++ kept) = false) : adds rk (older ++ kept) = false := by
  obtain ⟨-, hlast, hempty⟩ := hs.tail
  rw [adds, Bool.or_eq_false_iff] at h ⊢
  exact ⟨hempty, hlast ▸ h.2⟩

/-- The aim of a Reconcile that starts from this store: the configs that will be
left and, up to what `erase` drops, the status that will be written. -/
structure Plan (erase : RedkeyStatus → RedkeyStatus) (kept : List RedkeyConfig)
    (goal : RedkeyStatus) (rk : Redkey) (st : Store) : Prop where
  stored : st.redkeys rk.key = some rk
  running : rk.spec.primaries ≠ 0
  target : target rk (freshList rk st) = kept
  status : ∀ active, selectActiveConfig kept = some active →
    ∀ now, erase (aggregatedStatus now rk active rk.generation) = goal

/-- The configs are those that will be left. -/
structure Trimmed (erase : RedkeyStatus → RedkeyStatus) (kept : List RedkeyConfig)
    (goal : RedkeyStatus) (rk : Redkey) (st : Store) : Prop extends Plan erase kept goal rk st where
  fresh : freshList rk st = kept
  made : adds rk kept = false

/-- The status of `cur` was aggregated from the active one of `kept`. -/
def Written (kept : List RedkeyConfig) (cur : Redkey) : Prop :=
  ∃ (latest : Redkey) (active : RedkeyConfig) (now : Time), selectActiveConfig kept = some active ∧
    cur = latest.withStatus (aggregatedStatus now latest active latest.generation)

section Live
variable {erase : RedkeyStatus → RedkeyStatus} {goal : RedkeyStatus}

/-- The data of a point are those of the current store, and the aim is as it was. -/
def Live (erase : RedkeyStatus → RedkeyStatus) (kept : List RedkeyConfig) (goal : RedkeyStatus)
    (req : NamespacedName) : Point → World → Prop
  | .idle, w | .start, w => ∃ rk, rk.key = req ∧ Plan erase kept goal rk w.store
  | .got rk, w => rk.key = req ∧ Plan erase kept goal rk w.store
  | .listed rk cs, w => rk.key = req ∧ Plan erase kept goal rk w.store ∧
      cs = freshList rk w.store
  | .created rk, w => rk.key = req ∧ Plan erase kept goal rk w.store ∧
      adds rk (freshList rk w.store) = false
  | .pruning rk older kept', w => rk.key = req ∧ Plan erase kept goal rk w.store ∧
      adds rk (freshList rk w.store) = false ∧ freshList rk w.store = older ++ kept' ∧
      Splits (older ++ kept') older kept'
  | .aggregating rk cs, w => rk.key = req ∧ cs = kept ∧ ∃ cur, cur.key = req ∧
      cur.generation = rk.generation ∧ Trimmed erase kept goal cur w.store
  | .refetched rk cs latest, w => rk.key = req ∧ cs = kept ∧ latest.key = req ∧
      latest.generation = rk.generation ∧ Trimmed erase kept goal latest w.store
  | .settled rk, w => rk.key = req ∧ ∃ cur, cur.key = req ∧ cur.generation = rk.generation ∧
      Trimmed erase kept goal cur w.store ∧ Written kept cur ∧ erase cur.status = goal
  | .absent, _ | .deleting _ _, _ => False

theorem Live.plan (h : Live erase kept goal req p w) :
    ∃ rk, rk.key = req ∧ Plan erase kept goal rk w.store := by
  cases p with
  | idle => exact h
  | start => exact h
  | got rk => exact ⟨rk, h⟩
  | listed rk cs => exact ⟨rk, h.1, h.2.1⟩
  | created rk => exact ⟨rk, h.1, h.2.1⟩
  | pruning rk older kept' => exact ⟨rk, h.1, h.2.1⟩
  | aggregating rk cs =>
    obtain ⟨-, -, cur, hk, -, ht⟩ := h
    exact ⟨cur, hk, ht.toPlan⟩
  | refetched rk cs latest =>
    obtain ⟨-, -, hk, -, ht⟩ := h
    exact ⟨latest, hk, ht.toPlan⟩
  | settled rk =>
    obtain ⟨-, cur, hk, -, ht, -⟩ := h
    exact ⟨cur, hk, ht.toPlan⟩
  | absent => exact h.elim
  | deleting rk items => exact h.elim

/-! ## Steps that keep Redkeys and configs -/

theorem Plan.congr (h : Plan erase kept goal rk w.store)
    (hr : w'.store.redkeys = w.store.redkeys) (hc : w'.store.configs = w.store.configs) :
    Plan erase kept goal rk w'.store where
  stored := by rw [hr]; exact h.stored
  running := h.running
  target := by rw [freshList_congr hc]; exact h.target
  status := h.status

theorem Trimmed.congr (h : Trimmed erase kept goal rk w.store)
    (hr : w'.store.redkeys = w.store.redkeys) (hc : w'.store.configs = w.store.configs) :
    Trimmed erase kept goal rk w'.store where
  toPlan := h.toPlan.congr hr hc
  fresh := by rw [freshList_congr hc]; exact h.fresh
  made := h.made

theorem Live.congr (h : Live erase kept goal req p w) (hr : w'.store.redkeys = w.store.redkeys)
    (hc : w'.store.configs = w.store.configs) : Live erase kept goal req p w' := by
  cases p with
  | idle =>
    obtain ⟨rk, hk, hp⟩ := h
    exact ⟨rk, hk, hp.congr hr hc⟩
  | start =>
    obtain ⟨rk, hk, hp⟩ := h
    exact ⟨rk, hk, hp.congr hr hc⟩
  | got rk => exact ⟨h.1, h.2.congr hr hc⟩
  | listed rk cs =>
    obtain ⟨hk, hp, hf⟩ := h
    exact ⟨hk, hp.congr hr hc, hf.trans (freshList_congr hc).symm⟩
  | created rk =>
    obtain ⟨hk, hp, ha⟩ := h
    exact ⟨hk, hp.congr hr hc, by rw [freshList_congr hc]; exact ha⟩
  | pruning rk older kept' =>
    obtain ⟨hk, hp, ha, hf, hs⟩ := h
    exact ⟨hk, hp.congr hr hc, by rw [freshList_congr hc]; exact ha,
      by rw [freshList_congr hc]; exact hf, hs⟩
  | aggregating rk cs =>
    obtain ⟨hk, he, cur, hck, hg, ht⟩ := h
    exact ⟨hk, he, cur, hck, hg, ht.congr hr hc⟩
  | refetched rk cs latest =>
    obtain ⟨hk, he, hlk, hg, ht⟩ := h
    exact ⟨hk, he, hlk, hg, ht.congr hr hc⟩
  | settled rk =>
    obtain ⟨hk, cur, hck, hg, ht, hw⟩ := h
    exact ⟨hk, cur, hck, hg, ht.congr hr hc, hw⟩
  | absent => exact h.elim
  | deleting rk items => exact h.elim

/-! ## The three writes -/

theorem Plan.unique (h : Plan erase kept goal rk w.store) (hk : rk.key = req)
    (hc : w.store.redkeys req = some cur) : cur = rk :=
  Option.some.inj (hc.symm.trans (hk ▸ h.stored))

theorem Live.created (hr : Reached req w) (h : Live erase kept goal req (.listed rk cs) w)
    (hc : Creates rk cs)
    (hst : w'.store = { w.store with
      configs := w.store.configs ++ [newConfig rk (nextSequence cs.getLast?)] }) :
    Live erase kept goal req (.created rk) w' := by
  obtain ⟨hk, hp, rfl⟩ := h
  have hg : rk.generation < 2 ^ 63 :=
    (hr.versions.of_mem w.store_mem_history (hk ▸ hp.stored)).2
  set new := newConfig rk (nextSequence (freshList rk w.store).getLast?)
  have hfresh : freshList rk w'.store = freshList rk w.store ++ [new] := by
    refine sortBySequence_eq ?_ ?_
    · have hsel : w'.store.configsOf clusterLabel rk.key.namespace_ rk.key.name =
          w.store.configsOf clusterLabel rk.key.namespace_ rk.key.name ++ [new] := by
        have hns : new.key.namespace_ = rk.key.namespace_ := rfl
        have hl : new.metadata.labels.get clusterLabel = some rk.key.name := newConfig_label _ _
        rw [hst, Store.configsOf, List.filter_append, List.filter_cons_of_pos (by simp [hns, hl]),
          List.filter_nil]
        rfl
      rw [hsel]
      exact (sortBySequence_perm _).symm.append_right _
    · refine List.pairwise_append.mpr ⟨hr.ascending hk, List.pairwise_singleton _ _, ?_⟩
      intro a ha b hb
      rw [List.mem_singleton.mp hb]
      exact (hr.ascending hk).lt_nextSequence a ha
  have hadds : adds rk (freshList rk w'.store) = false := by
    rw [hfresh]
    exact adds_newConfig hg _ _
  have hplanned : planned rk (freshList rk w.store) = freshList rk w'.store := by
    rw [planned, if_pos ((creates_iff hp.running).mp hc), hfresh]
  refine ⟨hk, ⟨by rw [hst]; exact hp.stored, hp.running, ?_, hp.status⟩, hadds⟩
  rw [target, planned_of_not_adds hadds, ← hplanned]
  exact hp.target

theorem Live.deleted {c : RedkeyConfig} {older kept' : List RedkeyConfig} (hr : Reached req w)
    (h : Live erase kept goal req (.pruning rk (c :: older) kept') w)
    (hst : w'.store = w.store.removeConfig c.key) :
    Live erase kept goal req (.pruning rk older kept') w' := by
  obtain ⟨hk, hp, ha, hf, hs⟩ := h
  have hkeys : ((freshList rk w.store).map RedkeyConfig.key).Nodup :=
    ((hr.freshList_perm hk).map _).nodup_iff.mpr (hr.provenance.keys _ w.store_mem_history)
  have hfresh : freshList rk w'.store = older ++ kept' := by
    have hfilter : (freshList rk w.store).filter (fun d => d.key != c.key) = older ++ kept' := by
      rw [hf] at hkeys ⊢
      obtain ⟨hnot, -⟩ := List.nodup_cons.mp hkeys
      rw [List.cons_append, List.filter_cons_of_neg (by simp), List.filter_eq_self]
      intro d hd
      rw [bne_iff_ne]
      rintro he
      exact hnot (he ▸ List.mem_map_of_mem hd)
    refine sortBySequence_eq ?_ ?_
    · rw [← hfilter, hst]
      have hcomm : (w.store.removeConfig c.key).configsOf clusterLabel rk.key.namespace_ rk.key.name =
          (w.store.configsOf clusterLabel rk.key.namespace_ rk.key.name).filter
            fun d => d.key != c.key := by
        simp only [Store.configsOf, Store.removeConfig, List.filter_filter, Bool.and_comm]
      rw [hcomm]
      exact (sortBySequence_perm _).symm.filter _
    · rw [← hfilter]
      exact (hr.ascending hk).sublist List.filter_sublist
  rw [hf] at ha
  have hadds := adds_tail hs ha
  obtain ⟨hs', -, -⟩ := hs.tail
  have hkept : kept' = kept := by
    rw [← hp.target, hf]
    exact (target_of_splits ha hs).symm
  refine ⟨hk, ⟨by rw [hst]; exact hp.stored, hp.running, ?_, hp.status⟩, by rw [hfresh]; exact hadds,
    hfresh, hs'⟩
  rw [hfresh, target_of_splits hadds hs', hkept]

theorem Live.updated {active : RedkeyConfig} {now : Time}
    (he : ∀ s x, erase { s with lastUpdatedAt := x } = erase s)
    (h : Live erase kept goal req (.refetched rk cs latest) w)
    (ha : selectActiveConfig cs = some active)
    (hst : w'.store = w.store.setRedkey
      (latest.withStatus (aggregatedStatus now latest active rk.generation))) :
    Live erase kept goal req (.settled rk) w' := by
  obtain ⟨hk, rfl, hlk, hg, ht⟩ := h
  rw [← hg] at hst
  set cur := latest.withStatus (aggregatedStatus now latest active latest.generation) with hcur
  have hconfigs : freshList cur w'.store = freshList latest w.store := by
    simp only [freshList, Store.configsOf, hst, Store.setRedkey]
    rfl
  have hne : cs ≠ [] := by
    rw [← ht.target]
    exact target_ne_nil _ _
  have hadds : adds cur cs = false := adds_withStatus hne now active
  have htarget : target cur cs = cs := by
    have hs := ht.target
    rw [ht.fresh, target, planned_of_not_adds ht.made] at hs
    rw [target, planned_of_not_adds hadds, hs]
  refine ⟨hk, cur, hlk, hg, ⟨⟨?_, ht.running, ?_, ?_⟩, hconfigs.trans ht.fresh, hadds⟩,
    ⟨latest, active, now, ha, rfl⟩, ht.status active ha now⟩
  · rw [hst]
    exact redkeys_setRedkey_self _ _
  · rw [hconfigs, ht.fresh]
    exact htarget
  · intro active' ha' now'
    obtain rfl := Option.some.inj (ha.symm.trans ha')
    have hagain := aggregatedStatus_again now now' latest active latest.generation
    rw [← hcur] at hagain
    rw [show cur.generation = latest.generation from rfl, hagain, he]
    exact ht.status active ha now

/-! ## Every step -/

theorem calm_view {c : Call} {o : Outcome} {f i : Nat} (ok : calm.call c o w = true)
    (hv : o.view f w = some (i, st)) : st = w.store :=
  (view_current (c := c) ok hv).2

theorem Live.idle (h : Live erase kept goal req p w) : Live erase kept goal req .idle w := h.plan

/-- A Redkey that was written over is the one stored. -/
theorem setRedkey_refetched (h : Live erase kept goal req (.refetched rk cs latest) w)
    {status : RedkeyStatus} (hc : w.store.redkeys { latest with status := status }.key = some cur) :
    cur = latest := by
  obtain ⟨-, -, hlk, -, ht⟩ := h
  exact ht.toPlan.unique hlk (hlk ▸ hc)

/-- A call that ends the Reconcile leaves the aim as it is, with or without its effect. -/
theorem Live.effect (he : ∀ s x, erase { s with lastUpdatedAt := x } = erase s)
    (hr : Reached req w) (h : Live erase kept goal req p w) (hw : Effect calm req p w w') :
    Live erase kept goal req .idle w' := by
  cases hw with
  | quiet hq => exact (h.congr hq.redkeys hq.configs).idle
  | sawRedkey => exact (h.congr rfl rfl).idle
  | sawConfigs => exact (h.congr rfl rfl).idle
  | updated hi _ hc =>
    obtain ⟨cluster, configs, latest, active, now, rfl, ha, rfl⟩ | ⟨cluster, now, rfl, rfl⟩ :=
      hi.of_updateStatus
    · obtain rfl := setRedkey_refetched h hc
      exact (h.updated he ha rfl).idle
    · exact h.elim
  | created hi =>
    obtain ⟨cluster, configs, rfl, hc, rfl⟩ := hi.of_createConfig
    exact (h.created hr hc rfl).idle
  | deleted hi =>
    obtain ⟨cluster, c, older, kept', rfl, rfl⟩ | ⟨cluster, c, items, rfl, rfl⟩ :=
      hi.of_deleteConfig
    · exact (h.deleted hr rfl).idle
    · exact h.elim

theorem Live.aggregating (h : Live erase kept goal req (.settled rk) w) :
    Live erase kept goal req (.aggregating rk kept) w := by
  obtain ⟨hk, cur, hck, hg, ht, -⟩ := h
  exact ⟨hk, rfl, cur, hck, hg, ht⟩

/-- The number of a new config is free. -/
theorem create_accepted (hr : Reached req w)
    (h : Live erase kept goal req (.listed rk cs) w) :
    w.store.config (newConfig rk (nextSequence cs.getLast?)).key = none := by
  obtain ⟨hk, hp, rfl⟩ := h
  rw [Store.config_eq_none]
  intro d hd he
  have hkey := hr.provenance.key hr.versions w.store_mem_history hd
  rw [he, ← hk] at hkey
  have hseq := (configName_injective (NamespacedName.mk.inj hkey).2).2
  have hmem := (hr.freshList_perm hk).mem_iff.mpr hd
  exact absurd hseq ((hr.ascending hk).lt_nextSequence d hmem).ne'

/-- A config to be pruned is there. -/
theorem prune_accepted {c : RedkeyConfig} {older kept' : List RedkeyConfig} (hr : Reached req w)
    (h : Live erase kept goal req (.pruning rk (c :: older) kept') w) :
    w.store.config c.key ≠ none := by
  obtain ⟨hk, -, -, hf, -⟩ := h
  intro hn
  have hmem : c ∈ freshList rk w.store := by
    rw [hf]
    exact List.mem_cons_self
  exact Store.config_eq_none.mp hn c ((hr.freshList_perm hk).mem_iff.mp hmem) rfl

/-- Where pruning starts, on the list just read. -/
theorem live_prune (hk : rk.key = req) (hp : Plan erase kept goal rk w.store)
    (ha : adds rk (freshList rk w.store) = false) :
    Live erase kept goal req (.prune rk (freshList rk w.store)) w := by
  have hs := splits_lastApplied (freshList rk w.store)
  refine ⟨hk, hp, ha, hs.append, ?_⟩
  rw [← hs.append]
  exact hs

theorem Live.silent (h : Live erase kept goal req p w) (hq : Silent p q) :
    Live erase kept goal req q w := by
  cases hq with
  | quit => exact h.idle
  | reuse hrun hc =>
    obtain ⟨hk, hp, rfl⟩ := h
    exact live_prune hk hp (Bool.not_eq_true _ ▸ fun ha => hc ((creates_iff hrun).mpr ha))
  | begun h0 => exact absurd h0 h.2.1.running
  | pruned =>
    obtain ⟨hk, hp, ha, hf, hs⟩ := h
    rw [List.nil_append] at hf hs
    rw [hf] at ha
    have htarget := hp.target
    rw [hf, target_of_splits ha hs] at htarget
    exact ⟨hk, htarget, _, hk, rfl, hp, hf.trans htarget, htarget ▸ ha⟩
  | await ha => exact absurd ha.1 h.2.1.running
  | again =>
    obtain ⟨hk, he, hlk, hg, ht⟩ := h
    exact ⟨hk, he, _, hlk, hg, ht⟩
  | skip =>
    obtain ⟨-, he, cur, -, -, ht⟩ := h
    exact absurd (ht.target.trans he.symm) (target_ne_nil _ _)
  | steady h0 => exact absurd h0 h.2.1.running

theorem Live.next {c : Call} {o : Outcome} {res : Except ApiError (Reply c)}
    (he : ∀ s x, erase { s with lastUpdatedAt := x } = erase s) (hr : Reached req w)
    (h : Live erase kept goal req p w) (hq : Next req p c res q) (ok : calm.call c o w = true)
    (hw : answer c o w = some (res, w')) : Live erase kept goal req q w' := by
  cases hq with
  | stay hi hc =>
    have hquiet := quiet_answer hc hw
    exact h.congr hquiet.redkeys hquiet.configs
  | failed hi => exact h.effect he hr (hi.effect ok hw)
  | missing =>
    obtain ⟨rk, hk, hp⟩ := h
    obtain ⟨hres, -⟩ | ⟨i, st, hv, hres, -⟩ := answer_getRedkey hw
    · cases hres
    · obtain rfl := calm_view ok hv
      rw [← hk, hp.stored] at hres
      cases hres
  | get =>
    obtain ⟨rk, hk, hp⟩ := h
    obtain ⟨i, st, hv, hrk, rfl⟩ := answer_getRedkey_ok hw
    obtain rfl := calm_view ok hv
    obtain rfl := hp.unique hk hrk
    exact ⟨hk, hp.congr rfl rfl⟩
  | list =>
    obtain ⟨hk, hp⟩ := h
    obtain ⟨i, st, hv, hperm, rfl⟩ := answer_listConfigs_ok hw
    obtain rfl := calm_view ok hv
    exact ⟨hk, hp.congr rfl rfl, hr.sort_eq hk hperm⟩
  | create hc hres =>
    obtain ⟨-, e, rfl, hrej⟩ | ⟨st, hst, rfl, -⟩ := answer_write hw
    · obtain rfl : e = .alreadyExists := by simpa using hres
      obtain ⟨-, hsome⟩ := apply_createConfig_error (hrej.resolve_left nofun)
      rw [create_accepted hr h] at hsome
      cases hsome
    · obtain ⟨-, rfl⟩ := apply_createConfig hst
      exact h.created hr hc rfl
  | relist hrun =>
    obtain ⟨hk, hp, ha⟩ := h
    obtain ⟨i, st, hv, hperm, rfl⟩ := answer_listConfigs_ok hw
    obtain rfl := calm_view ok hv
    rw [hr.sort_eq hk hperm]
    exact live_prune hk (hp.congr rfl rfl) ha
  | prune hres =>
    obtain ⟨-, e, rfl, hrej⟩ | ⟨st, hst, rfl, -⟩ := answer_write hw
    · obtain rfl : e = .notFound := by simpa using hres
      obtain ⟨-, hnone⟩ := apply_deleteConfig_error (hrej.resolve_left nofun)
      exact absurd hnone (prune_accepted hr h)
    · obtain ⟨c, -, rfl⟩ := apply_deleteConfig hst
      exact h.deleted hr rfl
  | refetch =>
    obtain ⟨hk, hcs, cur, hck, hg, ht⟩ := h
    obtain ⟨i, st, hv, hrk, rfl⟩ := answer_getRedkey_ok hw
    obtain rfl := calm_view ok hv
    obtain rfl := ht.toPlan.unique hck (hk ▸ hrk)
    exact ⟨hk, hcs, hck, hg, ht.congr rfl rfl⟩
  | retryRead =>
    obtain ⟨-, rfl⟩ | ⟨i, st, -, -, rfl⟩ := answer_getRedkey hw
    · exact h
    · exact h.congr rfl rfl
  | update ha now =>
    obtain ⟨st, hst, rfl⟩ := answer_write_ok hw
    obtain ⟨cur, hc, -, rfl⟩ := apply_updateStatus hst
    obtain rfl := setRedkey_refetched h hc
    exact h.updated he ha rfl
  | retryUpdate ha now =>
    obtain ⟨rfl, -⟩ | ⟨st, hst, rfl, -⟩ := answer_write hw
    · exact h.silent .again
    · obtain ⟨cur, hc, -, rfl⟩ := apply_updateStatus hst
      obtain rfl := setRedkey_refetched h hc
      have hcs := h.2.1
      rw [hcs]
      exact (h.updated he ha rfl).aggregating
  | relistAll hd => exact absurd hd.1 h.2.1.running
  | delete => exact h.elim
  | zero => exact h.elim

/-- However calls go, a run of the operator alone keeps its aim. -/
theorem Runs.live (he : ∀ s x, erase { s with lastUpdatedAt := x } = erase s)
    (h₀ : Reached req w) (hl : Live erase kept goal req .idle w) (h : Runs calm req w p v) :
    Live erase kept goal req p v := by
  induction h using Runs.induct with
  | init => exact hl
  | env p e u u' h ok hw ih =>
    cases e with
    | collect key =>
      have hu := h₀.later h
      exact absurd hw (hu.provenance.not_collected hu.versions)
    | _ => cases ok
  | enter p u h ih => exact ih.idle.congr rfl rfl
  | silent p q u h hq ih => exact ih.silent hq
  | call p q u u' c o r h hq ok hw ih => exact ih.next he (h₀.later h) hq ok hw

end Live

/-! ## What is reached in the end -/

/-- The status that will be written, up to its timestamps. -/
def goalOf (rk : Redkey) (kept : List RedkeyConfig) : RedkeyStatus :=
  match selectActiveConfig kept with
  | some active => timeless (aggregatedStatus 0 rk active rk.generation)
  | none => rk.status

theorem plan_of_store (h : w.store.redkeys rk.key = some rk) (hp : rk.spec.primaries ≠ 0) :
    Plan timeless (target rk (freshList rk w.store)) (goalOf rk (target rk (freshList rk w.store)))
      rk w.store where
  stored := h
  running := hp
  target := rfl
  status active ha now := by
    rw [goalOf, ha]
    exact timeless_aggregatedStatus now 0 rk active rk.generation

/-- A status but for the time of its last update. -/
def untimed (s : RedkeyStatus) : RedkeyStatus := { s with lastUpdatedAt := none }

/-- Nothing is left to do. -/
structure Still (req : NamespacedName) (configs kept : List RedkeyConfig) (status : RedkeyStatus)
    (w : World) : Prop where
  configs : w.store.configs = configs
  redkey : ∃ cur, cur.key = req ∧ Trimmed untimed kept (untimed status) cur w.store ∧
    untimed cur.status = untimed status

/-- A status that was just aggregated is aggregated again. -/
theorem Written.again (h : Written kept cur) {active : RedkeyConfig}
    (ha : selectActiveConfig kept = some active) (now : Time) :
    untimed (aggregatedStatus now cur active cur.generation) = untimed cur.status := by
  obtain ⟨latest, active', now', ha', rfl⟩ := h
  obtain rfl := Option.some.inj (ha'.symm.trans ha)
  show untimed (aggregatedStatus now (latest.withStatus _) active' latest.generation) = _
  rw [aggregatedStatus_again]
  rfl

section Still
variable {configs : List RedkeyConfig} {status : RedkeyStatus}

theorem Still.live (h : Still req configs kept status w) :
    Live untimed kept (untimed status) req .idle w := by
  obtain ⟨cur, hk, ht, -⟩ := h.redkey
  exact ⟨cur, hk, ht.toPlan⟩

theorem Still.congr (h : Still req configs kept status w) (hr : w'.store.redkeys = w.store.redkeys)
    (hc : w'.store.configs = w.store.configs) : Still req configs kept status w' := by
  obtain ⟨cur, hk, ht, hs⟩ := h.redkey
  exact ⟨hc.trans h.configs, cur, hk, ht.congr hr hc, hs⟩

theorem Still.not_creates (h : Still req configs kept status w)
    (hl : Live untimed kept (untimed status) req (.listed rk cs) w) : ¬ Creates rk cs := by
  obtain ⟨hk, hp, rfl⟩ := hl
  obtain ⟨cur, hck, ht, -⟩ := h.redkey
  obtain rfl := hp.unique hk (hck ▸ ht.stored)
  rw [creates_iff hp.running, ht.fresh, ht.made]
  exact Bool.false_ne_true

theorem Still.not_prunes {c : RedkeyConfig} {older kept' : List RedkeyConfig}
    (h : Still req configs kept status w)
    (hl : Live untimed kept (untimed status) req (.pruning rk (c :: older) kept') w) : False := by
  obtain ⟨hk, hp, ha, hf, hs⟩ := hl
  obtain ⟨cur, hck, ht, -⟩ := h.redkey
  obtain rfl := hp.unique hk (hck ▸ ht.stored)
  have htarget := hp.target
  rw [hf] at ha htarget
  rw [target_of_splits ha hs] at htarget
  have hlen := congrArg List.length (hf.symm.trans (ht.fresh.trans htarget.symm))
  simp at hlen
  omega

theorem Runs.still (h₀ : Reached req w) (hs : Still req configs kept status w)
    (h : Runs calm req w p v) : Still req configs kept status v := by
  have he : ∀ s x, untimed { s with lastUpdatedAt := x } = untimed s := fun _ _ => rfl
  refine h.world hs ?_ ?_ ?_
  · intro p e u u' hu _ ok hw
    cases e with
    | collect key =>
      have hu := h₀.later hu
      exact absurd hw (hu.provenance.not_collected hu.versions)
    | _ => cases ok
  · exact fun u hu => hu.congr rfl rfl
  · intro p u u' hu hstill hw
    have hl := hu.live he h₀ hs.live
    cases hw with
    | quiet hq => exact hstill.congr hq.redkeys hq.configs
    | sawRedkey => exact hstill.congr rfl rfl
    | sawConfigs => exact hstill.congr rfl rfl
    | @updated rk cur o hi _ hc _ =>
      obtain ⟨cluster, listed, latest, active, now, rfl, ha, rfl⟩ | ⟨cluster, now, rfl, rfl⟩ :=
        hi.of_updateStatus
      · obtain rfl := setRedkey_refetched hl hc
        have hset : Live untimed kept (untimed status) req (.settled cluster) (u.commit
            (u.store.setRedkey (cur.withStatus (aggregatedStatus now cur active cluster.generation)))
            []) := hl.updated he ha rfl
        obtain ⟨-, cur', hk, -, ht, -, hgoal⟩ := hset
        exact ⟨hstill.configs, cur', hk, ht, hgoal⟩
      · exact hl.elim
    | created hi =>
      obtain ⟨cluster, listed, rfl, hc, rfl⟩ := hi.of_createConfig
      exact absurd hc (hstill.not_creates hl)
    | deleted hi =>
      obtain ⟨cluster, c, older, kept', rfl, rfl⟩ | ⟨cluster, c, items, rfl, rfl⟩ :=
        hi.of_deleteConfig
      · exact (hstill.not_prunes hl).elim
      · exact hl.elim

end Still

/-! ## The operator -/

section reconcile
variable {r : RedkeyReconciler} {t : State server Result} {a : Result}

theorem reaches_of_exec {T : Terms server} (hT : T.Implies calm)
    (ht : Reaches calm (reconcile r req) ⟨w, none⟩ t)
    (h : Exec T (reconcile r req) (enter t.world) (.ok a) v) :
    Reaches calm (reconcile r req) ⟨w, none⟩ ⟨v, some (.ret a)⟩ :=
  (h.mono hT).reaches ht.stopped.started

/-- A Reconcile of the operator alone that returns has reached its aim. -/
theorem settled_of_returned {goal : RedkeyStatus} (h₀ : Reached req w)
    (hl : Live timeless kept goal req .idle w)
    (h : Reaches calm (reconcile r req) ⟨w, none⟩ ⟨v, some (.ret a)⟩) :
    Reached req v ∧ ∃ cur, cur.key = req ∧ Trimmed timeless kept goal cur v.store ∧
      Written kept cur ∧ timeless cur.status = goal := by
  obtain ⟨p, hp, hret⟩ := reconcile_returned h rfl
  have hlive := hp.live (fun _ _ => rfl) h₀ hl
  refine ⟨h₀.later hp, ?_⟩
  obtain rfl | ⟨cluster, rfl⟩ := hret
  · exact hlive.elim
  · obtain ⟨-, cur, hk, -, ht, hw, hs⟩ := hlive
    exact ⟨cur, hk, ht, hw, hs⟩

/-- Two Reconciles with one aim leave the same configs and, up to timestamps, the
same status. -/
theorem same_end {goal : RedkeyStatus} {u : World} (h₀ : Reached req w)
    (hl : Live timeless kept goal req .idle w) {b : Result}
    (h : Reaches calm (reconcile r req) ⟨w, none⟩ ⟨v, some (.ret a)⟩)
    (h' : Reaches calm (reconcile r req) ⟨w, none⟩ ⟨u, some (.ret b)⟩) :
    v.store.configs.Perm u.store.configs ∧ ∃ rk rk', v.store.redkeys req = some rk ∧
      u.store.redkeys req = some rk' ∧ timeless rk.status = timeless rk'.status := by
  obtain ⟨hv, rk, hk, ht, -, hs⟩ := settled_of_returned h₀ hl h
  obtain ⟨hu, rk', hk', ht', -, hs'⟩ := settled_of_returned h₀ hl h'
  refine ⟨?_, rk, rk', hk ▸ ht.stored, hk' ▸ ht'.stored, hs.trans hs'.symm⟩
  have hperm := hv.freshList_perm hk
  have hperm' := hu.freshList_perm hk'
  rw [ht.fresh] at hperm
  rw [ht'.fresh] at hperm'
  exact hperm.symm.trans hperm'

/-- Without failures a Reconcile returns, wherever the one before it was cut short. -/
theorem flawless_returns {goal : RedkeyStatus} (h₀ : Reached req w)
    (hl : Live timeless kept goal req .idle w) (ht : Reaches calm (reconcile r req) ⟨w, none⟩ t) :
    Always flawless (reconcile r req) (enter t.world) fun _ _ => True := by
  obtain ⟨p, hp⟩ := reconcile_runs ht
  obtain ⟨rk, rfl, hplan⟩ := (hp.live (fun _ _ => rfl) h₀ hl).plan
  exact always_reconcile r hplan.stored hplan.running

/-- What a Reconcile has returned with stays. -/
theorem still_of_returned {goal : RedkeyStatus} (h₀ : Reached req w)
    (hl : Live timeless kept goal req .idle w)
    (h : Reaches calm (reconcile r req) ⟨w, none⟩ ⟨v, some (.ret a)⟩) :
    ∃ rk, v.store.redkeys req = some rk ∧ Still req v.store.configs kept rk.status v := by
  obtain ⟨hv, rk, hk, ht, hw, -⟩ := settled_of_returned h₀ hl h
  refine ⟨rk, hk ▸ ht.stored, rfl, rk, hk, ⟨⟨ht.stored, ht.running, ht.target, ?_⟩, ht.fresh,
    ht.made⟩, rfl⟩
  exact fun active ha now => hw.again ha now

/-- In every reachable state with primaries, and with the operator alone from
there on: after any number of Reconciles that were cut short at any point, each
failure-free Reconcile returns and leaves the configs and the status that a
failure-free Reconcile from the original state leaves. After a Reconcile that
returned, no other one changes a config or the status but for `lastUpdatedAt`. -/
theorem reconcile_resumes {T : Terms server} {s : State server Result} {w₀ : World}
    (hf : Fresh req w₀) (hs : Reaches T (reconcile r req) ⟨w₀, none⟩ s)
    (hrk : s.world.store.redkeys req = some rk) (hp : rk.spec.primaries ≠ 0) :
    (∀ t, Reaches calm (reconcile r req) ⟨s.world, none⟩ t →
      (∃ a v, Exec flawless (reconcile r req) (enter t.world) (.ok a) v) ∧
      ∀ res v, Exec flawless (reconcile r req) (enter t.world) res v → (∃ a, res = .ok a) ∧
        ∀ b u, Exec flawless (reconcile r req) (enter s.world) (.ok b) u →
          v.store.configs.Perm u.store.configs ∧
          ∃ rk rk', v.store.redkeys req = some rk ∧ u.store.redkeys req = some rk' ∧
            timeless rk.status = timeless rk'.status) ∧
    ∀ a v, Exec calm (reconcile r req) (enter s.world) (.ok a) v →
      ∀ t, Reaches calm (reconcile r req) ⟨v, none⟩ t →
        t.world.store.configs = v.store.configs ∧
        ∃ rk rk', v.store.redkeys req = some rk ∧ t.world.store.redkeys req = some rk' ∧
          rk'.status = { rk.status with lastUpdatedAt := rk'.status.lastUpdatedAt } := by
  have h₀ : Reached req s.world := by
    obtain ⟨p, hr⟩ := reconcile_runs hs
    exact ⟨w₀, hf, (hr.weaken implies_any).silent .quit⟩
  have hkey : rk.key = req := h₀.versions.keyed _ _ hrk
  have hl : Live timeless _ _ req .idle s.world :=
    ⟨rk, hkey, plan_of_store (hkey ▸ hrk) hp⟩
  constructor
  · intro t ht
    have hret := flawless_returns h₀ hl ht
    refine ⟨?_, fun res v hx => ?_⟩
    · obtain ⟨res, v, hx⟩ := exists_flawless (reconcile r req) (enter t.world)
      obtain ⟨a, rfl, -⟩ := hret res v hx
      exact ⟨a, v, hx⟩
    · obtain ⟨a, rfl, -⟩ := hret res v hx
      refine ⟨⟨a, rfl⟩, fun b u hu => ?_⟩
      exact same_end h₀ hl (reaches_of_exec flawless_calm ht hx)
        (reaches_of_exec flawless_calm .refl hu)
  · intro a v hx t ht
    have hv := reaches_of_exec (.refl calm) .refl hx
    obtain ⟨rk, hrk, hstill⟩ := still_of_returned h₀ hl hv
    obtain ⟨p, hp⟩ := reconcile_runs ht
    obtain ⟨hconfigs, rk', hk', ht', hs'⟩ := hp.still (settled_of_returned h₀ hl hv).1 hstill
    refine ⟨hconfigs, rk, rk', hrk, hk' ▸ ht'.stored, ?_⟩
    exact congrArg (fun s => { s with lastUpdatedAt := rk'.status.lastUpdatedAt }) hs'

end reconcile

/-- The config is created, the answer is lost and the Reconcile is given up. -/
def answerLost : List (Move server) :=
  [.event .start, .drain .ok 11, .event (.call .lost), .drain .ok 1, .event .stop]

set_option maxRecDepth 100000 in
theorem reconcile_resumes_sample : ∃ t a v b u,
    Reaches calm sampleReconcile ⟨sampleWorld 3, none⟩ t ∧ t.world.store.configs.length = 1 ∧
      Exec flawless sampleReconcile (enter t.world) (.ok a) v ∧
      Exec flawless sampleReconcile (enter (sampleWorld 3)) (.ok b) u ∧
      v.store.configs.Perm u.store.configs := by
  have hall := (reconcile_resumes (r := ⟨60⟩) (T := calm) (fresh_sampleWorld 3) .refl
    (redkeys_sampleWorld 3) (by decide)).1
  obtain ⟨t, ht, hlen⟩ : ∃ t, Reaches calm sampleReconcile ⟨sampleWorld 3, none⟩ t ∧
      (t.running.isNone && t.world.store.configs.length == 1) = true :=
    exists_reaches_of_play answerLost _ (by decide +kernel)
  obtain ⟨⟨a, v, hv⟩, hend⟩ := hall t ht
  obtain ⟨⟨b, u, hu⟩, -⟩ := hall _ .refl
  refine ⟨t, a, v, b, u, ht, ?_, hv, hu, ((hend _ v hv).2 b u hu).1⟩
  simp only [Bool.and_eq_true, beq_iff_eq] at hlen
  exact hlen.2

end RedkeyOperator.Protocol
