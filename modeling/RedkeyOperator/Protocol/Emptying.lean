import RedkeyOperator.Protocol.Fairness

/-! # A cluster scaled to zero is emptied

A Reconcile that returns has handed the scale-down to Robin: the highest config
has no primaries. From then on no config is added, and a Reconcile that comes
after Robin is done takes all of them away. Failures and crashes in between do not
matter as long as the highest config is deleted last. -/
namespace RedkeyOperator.Protocol
open RedkeyOperator.Api RedkeyOperator.Kube RedkeyOperator.Interleave RedkeyOperator.Controller

variable {T : Terms server} {req : NamespacedName} {w₀ w w' v : World} {p q : Point}
  {r : RedkeyReconciler} {s t : State server Result} {cluster cur : Redkey}
  {configs : List RedkeyConfig} {c z : RedkeyConfig}

/-! ## The highest config -/

/-- Of the configs the highest one is deleted last. -/
def deletesTopLast (req : NamespacedName) : Terms server where
  env _ _ := true
  call c _ w := match c with
    | .write (.deleteConfig key) =>
      let rest := ownConfigs req (w.store.removeConfig key)
      rest.isEmpty || (ownConfigs req w.store).all fun c =>
        rest.any fun d => decide (c.sequence ≤ d.sequence)
    | _ => true

/-- Under these terms an interrupted teardown does no harm. -/
def carefulProtocol (req : NamespacedName) : Terms server :=
  (tidyProtocol req).and (deletesTopLast req)

theorem carefulProtocol_protocol (req : NamespacedName) : (carefulProtocol req).Implies protocol :=
  (Terms.and_left _ _).trans (tidyProtocol_protocol req)

theorem getLast?_setConfigStatus (st : Store) (key : NamespacedName) (s : RedkeyConfigStatus) :
    (st.setConfigStatus key s).configs.getLast? =
      st.configs.getLast?.map fun c => if c.key == key then { c with status := s } else c := by
  rw [Store.setConfigStatus, List.getLast?_map]

/-- What is left after a deletion is nothing, or still ends with the highest config. -/
theorem getLast?_removeConfig {key : NamespacedName} {o : Outcome} (hv : Versions req w)
    (hp : Provenance req w) (ha : Ascending w.store.configs)
    (ok : (deletesTopLast req).call (.write (.deleteConfig key)) o w = true) :
    (w.store.removeConfig key).configs = [] ∨
      (w.store.removeConfig key).configs.getLast? = w.store.configs.getLast? := by
  have hown := hp.configsOf hv w.store_mem_history
  have hrest : ownConfigs req (w.store.removeConfig key) = (w.store.removeConfig key).configs := by
    have hcomm : ownConfigs req (w.store.removeConfig key) =
        (ownConfigs req w.store).filter fun c => c.key != key := by
      simp only [ownConfigs, Store.configsOf, Store.removeConfig, List.filter_filter, Bool.and_comm]
    rw [hcomm, ownConfigs, hown]
    rfl
  simp only [deletesTopLast, hrest, Bool.or_eq_true, List.isEmpty_iff, List.all_eq_true,
    List.any_eq_true, decide_eq_true_eq] at ok
  refine ok.imp id fun hall => ?_
  cases hl : w.store.configs.getLast? with
  | none =>
    rw [List.getLast?_eq_none_iff] at hl
    simp [Store.removeConfig, hl]
  | some z =>
    have hz : z ∈ ownConfigs req w.store := by
      rw [ownConfigs, hown]
      exact List.mem_of_getLast? hl
    obtain ⟨d, hd, hle⟩ := hall z hz
    obtain ⟨front, hfront⟩ := List.getLast?_eq_some_iff.mp hl
    have hdm := Store.mem_removeConfig.mp hd
    -- nothing but the last config itself is as high
    have hdz : d = z := by
      have hmem := hdm.1
      rw [hfront] at hmem ha
      rcases List.mem_append.mp hmem with hdf | hdz
      · have := (List.pairwise_append.mp ha).2.2 d hdf z List.mem_cons_self
        omega
      · exact List.mem_singleton.mp hdz
    subst hdz
    rw [Store.removeConfig, hfront, List.filter_append]
    have hk : (d.key != key) = true := by simpa using hdm.2
    simp [hk]

/-- A call of the operator keeps the highest config, takes away the last one, or
adds a new one. -/
theorem Effect.top (he : Effect T req p w w') (hT : T.Implies (deletesTopLast req))
    (hv : Versions req w) (hp : Provenance req w) (ha : Ascending w.store.configs) :
    w'.store.configs = [] ∨ w'.store.configs.getLast? = w.store.configs.getLast? ∨
      ∃ cluster configs, p = .listed cluster configs ∧ Creates cluster configs ∧
        w'.store.configs.getLast? = some (newConfig cluster (nextSequence configs.getLast?)) := by
  cases he with
  | quiet hq => exact .inr (.inl (by rw [hq.configs]))
  | sawRedkey => exact .inr (.inl rfl)
  | sawConfigs => exact .inr (.inl rfl)
  | updated => exact .inr (.inl rfl)
  | created hi =>
    obtain ⟨cluster, configs, rfl, hc, rfl⟩ := hi.of_createConfig
    exact .inr (.inr ⟨cluster, configs, rfl, hc, by simp⟩)
  | deleted hi ok =>
    exact (getLast?_removeConfig hv hp ha (hT.call _ _ _ ok)).imp id .inl

/-! ## It is never set aside -/

/-- The highest config is to be realised. -/
def TopStands (w : World) : Prop :=
  ∀ z, w.store.configs.getLast? = some z → z.phase ≠ .superseded

theorem TopStands.robin {key : NamespacedName} {s : RedkeyConfigStatus} (h : TopStands w)
    (hk : (w.store.configs.map RedkeyConfig.key).Nodup) (ha : Ascending w.store.configs)
    (hc : w.store.config key = some c) (hm : robinMay w.store.configs c s.configPhase = true) :
    TopStands (w.commit (w.store.setConfigStatus key s) (moves c s)) := by
  intro z hz
  rw [World.store_commit, getLast?_setConfigStatus] at hz
  obtain ⟨y, hy, rfl⟩ := Option.map_eq_some_iff.mp hz
  have hstands := h y hy
  by_cases hyk : y.key = key
  · obtain rfl := Store.eq_of_config hk hc (List.mem_of_getLast? hy) hyk
    simp only [hyk, beq_self_eq_true, if_true, RedkeyConfig.phase]
    intro hs
    rw [hs] at hm
    have := robinMay_superseded hm hstands
    rw [superseded_not_last ha hy] at this
    cases this
  · simpa [hyk] using hstands

theorem Runs.topStands (h : Runs (carefulProtocol req) req w₀ p w) (hf : Fresh req w₀) :
    TopStands w := by
  refine h.world (G := TopStands) ?_ ?_ ?_ ?_
  · intro z hz
    rw [hf.configs] at hz
    cases hz
  · intro p e w w' hr hw ok he
    have hpr : Runs protocol req w₀ p w := hr.weaken (carefulProtocol_protocol req)
    cases e with
    | update key spec =>
      obtain ⟨rk, -, -, rfl⟩ := env_update he
      exact hw
    | robin key s =>
      obtain ⟨c, hc, rfl⟩ := env_robin he
      exact hw.robin ((hr.provenance hf).keys _ w.store_mem_history) (hpr.orderly hf).1.ascending hc
        (robinMay_of_protocol ((carefulProtocol_protocol req).env _ _ ok) hc)
    | collect key => exact absurd he ((hr.provenance hf).not_collected (hr.versions hf.versions))
  · exact fun w hw => hw
  · intro p w w' hr hw he
    have hpr : Runs protocol req w₀ p w := hr.weaken (carefulProtocol_protocol req)
    intro z hz
    obtain hnil | hsame | ⟨cluster, configs, -, -, hnew⟩ := he.top (Terms.and_right _ _)
      (hr.versions hf.versions) (hr.provenance hf) (hpr.orderly hf).1.ascending
    · rw [hnil] at hz
      cases hz
    · exact hw z (hsame ▸ hz)
    · rw [hnew] at hz
      cases hz
      simp [newConfig, RedkeyConfig.phase]

/-! ## The scale-down is handed to Robin -/

def AsksZero (req : NamespacedName) (w : World) : Prop :=
  ∀ rk, w.store.redkeys req = some rk → rk.spec.primaries = 0

/-- The highest config, if there is one, is for the scale-down. -/
def TopZero (w : World) : Prop := ∀ z, w.store.configs.getLast? = some z → z.spec.primaries = 0

/-- The user leaves the cluster scaled to zero. -/
def zeroProtocol (req : NamespacedName) : Terms server :=
  (carefulProtocol req).and (specUnchanged req)

theorem zeroProtocol_careful (req : NamespacedName) :
    (zeroProtocol req).Implies (carefulProtocol req) := Terms.and_left _ _

theorem zeroProtocol_protocol (req : NamespacedName) : (zeroProtocol req).Implies protocol :=
  (zeroProtocol_careful req).trans (carefulProtocol_protocol req)

/-- A world between two Reconciles of a cluster that is scaled to zero. -/
structure Zeroed (req : NamespacedName) (w₀ w : World) : Prop where
  fresh : Fresh req w₀
  runs : Runs (carefulProtocol req) req w₀ .idle w
  zero : AsksZero req w

section Zeroed
variable (hz : Zeroed req w₀ w)
include hz

theorem Zeroed.trans (h : Runs (zeroProtocol req) req w p v) :
    Runs (carefulProtocol req) req w₀ p v := hz.runs.trans (h.weaken (zeroProtocol_careful req))

theorem Zeroed.protocol (h : Runs (zeroProtocol req) req w p v) : Runs protocol req w₀ p v :=
  (hz.trans h).weaken (carefulProtocol_protocol req)

/-- The spec stays as it is, and so it is what a Reconcile has read. -/
theorem Zeroed.asks (h : Runs (zeroProtocol req) req w p v) :
    AsksZero req v ∧ ∀ rk, p.cluster = some rk → rk.spec.primaries = 0 := by
  induction h using Runs.induct with
  | init => exact ⟨hz.zero, fun rk hrk => by cases hrk⟩
  | env p e u u' h ok hw ih =>
    refine ⟨fun rk hrk => ?_, ih.2⟩
    have hv := (hz.trans h).versions hz.fresh.versions
    cases e with
    | update key spec =>
      obtain ⟨rk₀, hrk₀, -, rfl⟩ := env_update hw
      have hne : key ≠ req := by
        simpa [specUnchanged] using
          (Terms.and_right (carefulProtocol req) (specUnchanged req)).env _ _ ok
      have hkey : (rk₀.withSpec spec).key = key := hv.keyed key rk₀ hrk₀
      rw [World.store_commit, redkeys_setRedkey_of_ne _ (hkey.symm ▸ hne.symm)] at hrk
      exact ih.1 rk hrk
    | robin key s =>
      obtain ⟨c, -, rfl⟩ := env_robin hw
      exact ih.1 rk hrk
    | collect key =>
      exact absurd hw (((hz.trans h).provenance hz.fresh).not_collected hv)
  | enter p u h ih => exact ⟨ih.1, fun rk hrk => by cases hrk⟩
  | silent p q u h hq ih => exact ⟨ih.1, fun rk hrk => ih.2 rk (hq.cluster hrk)⟩
  | call p q u u' c o res h hq ok hw ih =>
    have hv := (hz.trans h).versions hz.fresh.versions
    refine ⟨fun rk hrk => ?_, fun rk hrk => ?_⟩
    · obtain ⟨rk₀, hrk₀, hsp⟩ := (hq.issues.effect ok hw).spec hv hrk
      rw [hsp]
      exact ih.1 rk₀ hrk₀
    · obtain hrk | ⟨rfl, rfl⟩ := hq.cluster hrk
      · exact ih.2 rk hrk
      · -- the Redkey just read is the stored one
        cases hq with
        | get =>
          have hget := (tidyProtocol_current req).call _ _ _ ((Terms.and_left _ _).call _ _ _
            ((zeroProtocol_careful req).call _ _ _ ok))
          obtain ⟨i, st, hview, hst, -⟩ := answer_getRedkey_ok hw
          obtain ⟨-, rfl⟩ :=
            view_now (fun j order ho => by subst ho; simpa [currentGets] using hget) hview
          exact ih.1 rk hst

omit hz in
/-- The list read ends like the configs stored. -/
theorem Tracks.top (ht : Tracks (.listed cluster configs) w) (hl : configs.getLast? = some z) :
    ∃ y, w.store.configs.getLast? = some y ∧ Ages z y := by
  exact ht.2.getLast_right hl

omit hz in
theorem TopZero.not_creates (h : TopZero w) (ht : Tracks (.listed cluster configs) w)
    (h0 : cluster.spec.primaries = 0) : ¬ Creates cluster configs := by
  rw [Creates, if_pos h0]
  rintro ⟨z, hl, hne⟩
  obtain ⟨y, hy, hzy⟩ := ht.top hl
  exact hne (hzy.spec ▸ h y hy)

/-- Events of the environment keep the highest config, up to its status. -/
theorem Zeroed.topZero_env {e : Ev} (h : Runs (zeroProtocol req) req w p v) (ht : TopZero v)
    (he : env e v = some w') : TopZero w' := by
  cases e with
  | update key spec =>
    obtain ⟨rk, -, -, rfl⟩ := env_update he
    exact ht
  | robin key s =>
    obtain ⟨c, -, rfl⟩ := env_robin he
    intro z hl
    rw [World.store_commit, getLast?_setConfigStatus] at hl
    obtain ⟨y, hy, rfl⟩ := Option.map_eq_some_iff.mp hl
    have := ht y hy
    split <;> exact this
  | collect key =>
    have hr := hz.trans h
    exact absurd he ((hr.provenance hz.fresh).not_collected (hr.versions hz.fresh.versions))

/-- No other config is put above it. -/
theorem Zeroed.topZero_effect (h : Runs (zeroProtocol req) req w p v) (ht : TopZero v)
    (he : Effect (zeroProtocol req) req p v w') : TopZero w' := by
  have hr := hz.trans h
  obtain ⟨ho, htr⟩ := (hz.protocol h).orderly hz.fresh
  obtain hnil | hsame | ⟨cluster, configs, rfl, hc, -⟩ :=
    he.top ((zeroProtocol_careful req).trans (Terms.and_right _ _)) (hr.versions hz.fresh.versions)
      (hr.provenance hz.fresh) ho.ascending
  · intro z hl
    rw [hnil] at hl
    cases hl
  · exact fun z hl => ht z (hsame ▸ hl)
  · exact absurd hc (ht.not_creates htr ((hz.asks h).2 cluster rfl))

theorem Zeroed.topZero (ht : TopZero w) (h : Runs (zeroProtocol req) req w p v) : TopZero v :=
  h.world (G := TopZero) ht (fun _ _ _ _ hr ht _ he => hz.topZero_env hr ht he)
    (fun _ ht => ht) fun _ _ _ hr ht he => hz.topZero_effect hr ht he

omit hz in
/-- Where a Reconcile of a cluster scaled to zero has seen to the scale-down. -/
def Point.handed : Point → Prop
  | .created _ | .aggregating _ _ | .refetched _ _ _ | .settled _ => True
  | _ => False

omit hz in
/-- A Redkey without primaries is not pruned. -/
theorem Sourced.pruning_ne {older kept : List RedkeyConfig}
    (hs : Sourced req (.pruning cluster older kept) w) : cluster.spec.primaries ≠ 0 := hs.2.1

/-- The config for the scale-down is on top once it is created. -/
theorem Zeroed.created (h : Runs (zeroProtocol req) req w (.listed cluster configs) v)
    {o : Outcome} {res : Except ApiError Unit}
    (hr : res = .ok () ∨ res = .error .alreadyExists)
    (hw : answer (.write (.createConfig (newConfig cluster (nextSequence configs.getLast?)))) o v =
      some (res, w')) : TopZero w' := by
  have hp := hz.protocol h
  have hv := hp.versions hz.fresh.versions
  obtain ⟨ho, ht⟩ := hp.orderly hz.fresh
  have hfree := ht.free ho hv (hp.provenance hz.fresh) ((hp.sourced hz.fresh.cursors).key hv rfl)
  have h0 := (hz.asks h).2 cluster rfl
  obtain rfl | rfl := hr
  · obtain ⟨st, hst, rfl⟩ := answer_write_ok hw
    obtain ⟨-, rfl⟩ := apply_createConfig hst
    intro z hl
    rw [World.store_commit, List.getLast?_concat] at hl
    cases hl
    exact h0
  · obtain ⟨-, he⟩ := answer_write_rejected hw (by simp)
    obtain ⟨-, hs⟩ := apply_createConfig_error he
    rw [hfree] at hs
    cases hs

theorem Zeroed.handed (h : Runs (zeroProtocol req) req w p v) (hp : p.handed) : TopZero v := by
  induction h using Runs.induct with
  | init => exact hp.elim
  | env p e u u' h ok hw ih => exact hz.topZero_env h (ih hp) hw
  | enter p u h ih => exact hp.elim
  | silent p q u h hq ih =>
    have hpr := hz.protocol h
    obtain ⟨-, ht⟩ := hpr.orderly hz.fresh
    cases hq with
    | quit => exact hp.elim
    | reuse => exact hp.elim
    | begun => exact ih trivial
    | pruned =>
      exact absurd ((hz.asks h).2 _ rfl) (hpr.sourced hz.fresh.cursors).pruning_ne
    | await ha =>
      -- the list read ends with it, and so do the configs stored
      obtain ⟨-, z, hl, hz0, -⟩ := ha
      obtain ⟨y, hy, hzy⟩ := ht.top hl
      intro y' hy'
      cases hy.symm.trans hy'
      exact hzy.spec ▸ hz0
    | again => exact ih trivial
    | skip => exact ih trivial
    | steady => exact hp.elim
  | call p q u u' c o res h hq ok hw ih =>
    have heff := hq.issues.effect ok hw
    cases hq with
    | stay => exact hz.topZero_effect h (ih hp) heff
    | failed => exact hp.elim
    | get => exact hp.elim
    | missing => exact hp.elim
    | list => exact hp.elim
    | create hc hr => exact hz.created h hr hw
    | relist => exact hp.elim
    | prune => exact hp.elim
    | refetch => exact hz.topZero_effect h (ih trivial) heff
    | retryRead => exact hz.topZero_effect h (ih trivial) heff
    | update => exact hz.topZero_effect h (ih trivial) heff
    | retryUpdate => exact hz.topZero_effect h (ih trivial) heff
    | relistAll => exact hp.elim
    | delete => exact hp.elim
    | zero =>
      -- everything listed is deleted
      obtain ⟨-, ht⟩ := (hz.protocol h).orderly hz.fresh
      refine hz.topZero_effect h (fun z hl => ?_) heff
      obtain ⟨-, d, hd, -⟩ := ht z (List.mem_of_getLast? hl)
      cases hd

/-! ## Robin's work -/

theorem Zeroed.work_le (h : Runs (zeroProtocol req) req w p v) (ht : TopZero v)
    (he : Effect (zeroProtocol req) req p v w') :
    work w'.store.configs ≤ work v.store.configs := by
  cases he with
  | quiet hq => rw [hq.configs]
  | sawRedkey => exact le_rfl
  | sawConfigs => exact le_rfl
  | updated => exact le_rfl
  | created hi =>
    obtain ⟨cluster, configs, rfl, hc, rfl⟩ := hi.of_createConfig
    obtain ⟨-, htr⟩ := (hz.protocol h).orderly hz.fresh
    exact absurd hc (ht.not_creates htr ((hz.asks h).2 cluster rfl))
  | deleted => exact work_filter_le _ _

/-- With Robin done, the highest config is Applied. -/
theorem Zeroed.top_applied (h : Runs (zeroProtocol req) req w p v)
    (hdone : work v.store.configs = 0) (hl : v.store.configs.getLast? = some z) :
    z.phase = .applied := by
  have hstands := (hz.trans h).topStands hz.fresh z hl
  have hfin := work_eq_zero.mp hdone z (List.mem_of_getLast? hl)
  simpa [finished, isTerminalConfigPhase, hstands] using hfin

end Zeroed

/-! ## What is reached -/

/-- The cluster of the request has no configs, and its status says that it is
scaled to zero. -/
structure Emptied (cur : Redkey) (st : Store) : Prop where
  halted : cur.spec.primaries = 0
  empty : st.configs = []
  observed : cur.status.observedGeneration = cur.generation
  phase : cur.status.phase = .ready
  replicas : cur.status.replicas = 0
  reported : scaledToZero cur = true

def HasEmptied (req : NamespacedName) (w : World) : Prop :=
  ∃ cur, w.store.redkeys req = some cur ∧ Emptied cur w.store

theorem HasEmptied.same (h : HasEmptied req w) (hr : w'.store.redkeys = w.store.redkeys)
    (hc : w'.store.configs = w.store.configs) : HasEmptied req w' := by
  obtain ⟨cur, hcur, he⟩ := h
  exact ⟨cur, hr ▸ hcur, ⟨he.halted, hc ▸ he.empty, he.observed, he.phase, he.replicas, he.reported⟩⟩

/-- The status of a finished scale-down. -/
theorem hasEmptied_withStatus (hv : Versions req w) (hcur : w.store.redkeys req = some cur)
    (h0 : cur.spec.primaries = 0) (hc : w.store.configs = []) (now : Time) :
    HasEmptied req
      (w.commit (w.store.setRedkey (cur.withStatus (scaledToZeroStatus now cur))) []) := by
  have hk : (cur.withStatus (scaledToZeroStatus now cur)).key = req :=
    hv.keyed req cur hcur
  refine ⟨cur.withStatus (scaledToZeroStatus now cur), ?_, h0, hc, rfl, rfl, rfl, ?_⟩
  · rw [World.store_commit, ← hk]
    exact redkeys_setRedkey_self _ _
  · obtain ⟨c, hfind, hreason⟩ := reason_scaledToZeroStatus now cur
    have hst : (cur.withStatus (scaledToZeroStatus now cur)).status.conditions =
      (scaledToZeroStatus now cur).conditions := rfl
    rw [scaledToZero, hst, hfind]
    simp [hreason]

section Emptying
variable (hz : Zeroed req w₀ w)
include hz

theorem Zeroed.emptied_env {e : Ev} (h : Runs (zeroProtocol req) req w p v)
    (hm : HasEmptied req v) (ok : (zeroProtocol req).env e v = true) (he : env e v = some w') :
    HasEmptied req w' := by
  have hv := (hz.trans h).versions hz.fresh.versions
  obtain ⟨cur, hcur, hem⟩ := hm
  cases e with
  | update key spec =>
    obtain ⟨rk, hrk, -, rfl⟩ := env_update he
    have hne : key ≠ req := by
      simpa [specUnchanged] using
        (Terms.and_right (carefulProtocol req) (specUnchanged req)).env _ _ ok
    have hkey : (rk.withSpec spec).key = key := hv.keyed key rk hrk
    refine ⟨cur, ?_, ⟨hem.halted, hem.empty, hem.observed, hem.phase, hem.replicas, hem.reported⟩⟩
    rw [World.store_commit, redkeys_setRedkey_of_ne _ (hkey.symm ▸ hne.symm)]
    exact hcur
  | robin key s =>
    obtain ⟨c, hc, -⟩ := env_robin he
    obtain ⟨hmem, -⟩ := Store.config_mem hc
    rw [hem.empty] at hmem
    cases hmem
  | collect key => exact absurd he (((hz.trans h).provenance hz.fresh).not_collected hv)

theorem Zeroed.emptied_effect (h : Runs (zeroProtocol req) req w p v) (hm : HasEmptied req v)
    (he : Effect (zeroProtocol req) req p v w') : HasEmptied req w' := by
  have hpr := hz.protocol h
  have hv := hpr.versions hz.fresh.versions
  obtain ⟨-, ht⟩ := hpr.orderly hz.fresh
  have hempty : v.store.configs = [] := by
    obtain ⟨cur, -, hem⟩ := hm
    exact hem.empty
  cases he with
  | quiet hq => exact hm.same hq.redkeys hq.configs
  | sawRedkey => exact hm.same rfl rfl
  | sawConfigs => exact hm.same rfl rfl
  | updated hi ok hc hver =>
    obtain ⟨hcur, ⟨cluster, configs, active, now, rfl, hsel, -⟩ | ⟨now, rfl, rfl⟩⟩ :=
      hi.of_accepted hv (hpr.sourced hz.fresh.cursors) hc hver
    · -- there is nothing to aggregate
      have hnil : Aged configs v.store.configs := ht
      rw [hempty] at hnil
      cases hnil
      cases hsel
    · exact hasEmptied_withStatus hv hcur ((hz.asks h).2 _ rfl) hempty now
  | created hi =>
    obtain ⟨cluster, configs, rfl, hc, rfl⟩ := hi.of_createConfig
    have htop : TopZero v := by
      intro z hl
      rw [hempty] at hl
      cases hl
    exact absurd hc (htop.not_creates ht ((hz.asks h).2 cluster rfl))
  | deleted hi ok hc =>
    obtain ⟨hmem, -⟩ := Store.config_mem hc
    rw [hempty] at hmem
    cases hmem

/-- What is reached stays. -/
theorem Zeroed.emptied (hm : HasEmptied req w) (h : Runs (zeroProtocol req) req w p v) :
    HasEmptied req v :=
  h.world (G := HasEmptied req) hm (fun _ _ _ _ hr hm ok he => hz.emptied_env hr hm ok he)
    (fun _ hm => hm.same rfl rfl) fun _ _ _ hr hm he => hz.emptied_effect hr hm he

omit hz in
/-- Where a Reconcile can be once Robin is done. -/
def Settles (req : NamespacedName) : Point → World → Prop
  | .listed _ configs, _ => ∀ c ∈ configs, finished c = true
  | .created _, _ | .pruning _ _ _, _ | .aggregating _ _, _ | .refetched _ _ _, _ => False
  | .settled _, w => HasEmptied req w
  | _, _ => True

theorem Zeroed.settles_env {e : Ev} (h : Runs (zeroProtocol req) req w p v)
    (hs : Settles req p v) (ok : (zeroProtocol req).env e v = true) (he : env e v = some w') :
    Settles req p w' := by
  cases p with
  | settled => exact hz.emptied_env h hs ok he
  | _ => exact hs

theorem Zeroed.settles_silent (h : Runs (zeroProtocol req) req w p v)
    (hdone : work v.store.configs = 0) (hs : Settles req p v) (hq : Silent p q) :
    Settles req q v := by
  cases hq with
  | quit => trivial
  | reuse hne => exact absurd ((hz.asks h).2 _ rfl) hne
  | begun => exact hs.elim
  | pruned => exact hs.elim
  | await ha =>
    -- the config on top is finished, so it is Applied
    obtain ⟨-, z, hl, -, hne⟩ := ha
    obtain ⟨-, ht⟩ := (hz.protocol h).orderly hz.fresh
    obtain ⟨y, hy, hzy⟩ := ht.top hl
    have hfin := hzy.final (hs z (List.mem_of_getLast? hl))
    exact absurd (hfin ▸ hz.top_applied h hdone hy) hne
  | again => exact hs.elim
  | skip => exact hs.elim
  | steady => trivial

theorem Zeroed.settles_next {c : Call} {o : Outcome} {res : Except ApiError (Reply c)}
    (h : Runs (zeroProtocol req) req w p v) (htop : TopZero v) (hdone : work v.store.configs = 0)
    (hs : Settles req p v) (hq : Next req p c res q) (ok : (zeroProtocol req).call c o v = true)
    (hw : answer c o v = some (res, w')) : Settles req q w' := by
  have hpr := hz.protocol h
  have hv := hpr.versions hz.fresh.versions
  obtain ⟨-, ht⟩ := hpr.orderly hz.fresh
  have heff := hq.issues.effect ok hw
  cases hq with
  | stay =>
    cases p with
    | settled => exact hz.emptied_effect h hs heff
    | _ => exact hs
  | failed => trivial
  | get => trivial
  | missing => trivial
  | list =>
    have hcur : Runs currentLists req w₀ _ v := hpr.weaken (robinProtocol.and_right _)
    have ok := (robinProtocol.and_right currentLists).call _ _ _
      ((zeroProtocol_protocol req).call _ _ _ ok)
    obtain ⟨hperm, -⟩ := hcur.lists_current hz.fresh rfl ok hw
    exact fun c hc => work_eq_zero.mp hdone c (hperm.mem_iff.mp (mem_sortBySequence.mp hc))
  | create hc => exact absurd hc (htop.not_creates ht ((hz.asks h).2 _ rfl))
  | relist => exact hs.elim
  | prune => exact hs.elim
  | refetch => exact hs.elim
  | retryRead => exact hs.elim
  | update => exact hs.elim
  | retryUpdate => exact hs.elim
  | relistAll => trivial
  | delete => trivial
  | zero now =>
    obtain ⟨st, hst, rfl⟩ := answer_write_ok hw
    obtain ⟨cur, hc, hver, rfl⟩ := apply_updateStatus hst
    obtain ⟨hcur, ⟨_, _, _, _, hp, -⟩ | ⟨_, hp, -⟩⟩ :=
      (Issues.zero now).of_accepted hv (hpr.sourced hz.fresh.cursors) hc hver
    · cases hp
    · cases hp
      have hempty : v.store.configs = [] := List.eq_nil_iff_forall_not_mem.mpr fun d hd => by
        obtain ⟨-, e, he, -⟩ := ht d hd
        cases he
      exact hasEmptied_withStatus hv hcur ((hz.asks h).2 _ rfl) hempty now

/-- A Reconcile that returns after Robin is done has emptied the cluster. -/
theorem Zeroed.settles (htop : TopZero w) (hdone : work w.store.configs = 0)
    (h : Runs (zeroProtocol req) req w p v) : work v.store.configs = 0 ∧ Settles req p v := by
  induction h using Runs.induct with
  | init => exact ⟨hdone, trivial⟩
  | env p e u u' h ok hw ih =>
    refine ⟨?_, hz.settles_env h ih.2 ok hw⟩
    have hr := hz.trans h
    have hle := work_env (hr.provenance hz.fresh) (hr.versions hz.fresh.versions)
      ((zeroProtocol_protocol req).env _ _ ok) hw
    have := ih.1
    omega
  | enter p u h ih => exact ⟨ih.1, trivial⟩
  | silent p q u h hq ih => exact ⟨ih.1, hz.settles_silent h ih.1 ih.2 hq⟩
  | call p q u u' c o res h hq ok hw ih =>
    have ht := hz.topZero htop h
    have hle := hz.work_le h ht (hq.issues.effect ok hw)
    exact ⟨by omega, hz.settles_next h ht ih.1 ih.2 hq ok hw⟩

/-- The Redkey is there to be read. -/
theorem Zeroed.not_absent (h : Runs (zeroProtocol req) req w p v) : p ≠ .absent := by
  induction h using Runs.induct with
  | init => simp
  | env p e u u' h ok hw ih => exact ih
  | enter p u h ih => simp
  | silent p q u h hq ih =>
    intro he
    subst he
    cases hq
  | call p q u u' c o res h hq ok hw ih =>
    intro he
    subst he
    cases hq with
    | stay => exact ih rfl
    | missing =>
      obtain ⟨rk, hrk, -⟩ := ((hz.trans h).versions hz.fresh.versions).current
      obtain ⟨he, -⟩ | ⟨i, st, hview, hres, -⟩ := answer_getRedkey hw
      · cases he
      · have hget := (tidyProtocol_current req).call _ _ _ ((Terms.and_left _ _).call _ _ _
          ((zeroProtocol_careful req).call _ _ _ ok))
        obtain ⟨-, rfl⟩ :=
          view_now (fun j order ho => by subst ho; simpa [currentGets] using hget) hview
        rw [hrk] at hres
        cases hres

end Emptying

/-! ## Behaviours -/

section Behaviour
variable {b : Behaviour (carefulProtocol req) (reconcile r req) ⟨w₀, none⟩} {m k N : Nat} {a : Result}

theorem zeroed_at (hf : Fresh req w₀) (hk : SpecKept b N) (h0 : AsksZero req (b.state N).world)
    (hm : N ≤ m) : Zeroed req w₀ (b.state m).world := by
  refine ⟨hf, runs_idle .refl b m, fun rk hrk => ?_⟩
  obtain ⟨rk₀, hrk₀, hsp⟩ := spec_kept .refl hf hk hm rk hrk
  rw [hsp]
  exact h0 rk₀ hrk₀

/-- A Reconcile that was started and has returned is at its end. -/
theorem settled_at (hz : Zeroed req w₀ (b.state m).world) (hk : b.KeepsTo (zeroProtocol req) m)
    (hmk : m ≤ k) (hidle : (b.state m).running = none) (hret : (b.state k).running = some (.ret a)) :
    ∃ cluster, Runs (zeroProtocol req) req (b.state m).world (.settled cluster)
      (b.state k).world := by
  have h := Behaviour.reaches_from hk hmk
  obtain ⟨w, running, hw⟩ : ∃ w running, b.state m = ⟨w, running⟩ := ⟨_, _, rfl⟩
  rw [hw] at h hidle hz ⊢
  cases hidle
  obtain ⟨p, hp, rfl | ⟨cluster, rfl⟩⟩ := reconcile_returned h hret
  · exact absurd rfl (hz.not_absent hp)
  · exact ⟨cluster, hp⟩

theorem bare_at (hf : Fresh req w₀) (hb : Bare req w₀.store) (h : HasEmptied req (b.state m).world) :
    Bare req (b.state m).world.store := by
  obtain ⟨cur, hcur, he⟩ := h
  obtain ⟨⟨p, u⟩, ht, -⟩ :=
    ((along_reconcile r req).prod (keeps_reconcile r req)).reaches rfl (b.reaches .refl m)
  have ht : Tended (tidyProtocol req) req w₀ p u (b.state m).world := ht.mono (Terms.and_left _ _)
  exact (ht.clean hf hb).zero cur hcur he.halted he.empty

/-- Robin gets no more work once the scale-down is handed to it. -/
theorem work_step_zero (hz : Zeroed req w₀ (b.state m).world) (hk : b.KeepsTo (zeroProtocol req) m)
    (hidle : (b.state m).running = none) {n : Nat} (hn : m ≤ n) (ht : TopZero (b.state n).world) :
    work (b.state (n + 1)).world.store.configs ≤ work (b.state n).world.store.configs := by
  have h := Behaviour.reaches_from hk hn
  obtain ⟨w, running, hw⟩ : ∃ w running, b.state m = ⟨w, running⟩ := ⟨_, _, rfl⟩
  rw [hw] at h hidle hz
  cases hidle
  obtain ⟨p, hp, ⟨ev, -, ok, hw⟩ | hw | hw | hw⟩ := reconcile_step h (hk n hn) (b.steps n)
  · have hr := hz.trans hp
    exact work_env (hr.provenance hz.fresh) (hr.versions hz.fresh.versions)
      ((zeroProtocol_protocol req).env _ _ ok) hw
  · rw [hw]
  · rw [hw]
    exact le_rfl
  · exact hz.work_le hp ht hw

/-- **A cluster scaled to zero is emptied.** Take any infinite run of a new Redkey with
nothing of Robin's there, with failing calls and crashes, in which the Redkey and the
lists are read as they are, the highest config is deleted last, and the user scales
the cluster down with a config there and then leaves it. If Robin goes on with its
work and now and then a Reconcile returns without error, then from some point on the cluster has no config and nothing of Robin's,
and its status says that it is scaled to zero. -/
theorem halted_cluster_empties (hf : Fresh req w₀) (hb : Bare req w₀.store)
    (b : Behaviour (carefulProtocol req) (reconcile r req) ⟨w₀, none⟩) {N : Nat}
    (hk : SpecKept b N) (h0 : AsksZero req (b.state N).world) (hrobin : RobinIsFair b)
    (hop : b.Returns) :
    ∃ K, ∀ n, K ≤ n → HasEmptied req (b.state n).world ∧ Bare req (b.state n).world.store := by
  have hterms := keepsTo_of_specKept .refl hf hk
  have later : ∀ {m}, N ≤ m → b.KeepsTo (zeroProtocol req) m := fun hm n hn =>
    hterms n (hm.trans hn)
  have hz : ∀ {m}, N ≤ m → Zeroed req w₀ (b.state m).world := fun hm => zeroed_at hf hk h0 hm
  -- the first Reconcile that returns has handed the scale-down to Robin
  obtain ⟨m₁, k₁, a₁, hm₁, hmk₁, hidle₁, hret₁⟩ := hop N
  have hNk₁ : N ≤ k₁ := hm₁.trans hmk₁
  have htop : ∀ n, k₁ ≤ n → TopZero (b.state n).world := by
    intro n hn
    obtain ⟨cluster, hs⟩ := settled_at (hz hm₁) (later hm₁) hmk₁ hidle₁ hret₁
    obtain ⟨p, hp⟩ := runs_from (later hNk₁) hn (.inr ⟨a₁, hret₁⟩)
    exact (hz hNk₁).topZero ((hz hm₁).handed hs trivial) hp
  -- then Robin finishes its work
  obtain ⟨n₂, hn₂, hdone⟩ := exists_work_done .refl hf hrobin fun n hn =>
    work_step_zero (hz hm₁) (later hm₁) hidle₁ (hmk₁.trans hn) (htop n hn)
  -- and the next one that returns has emptied the cluster
  obtain ⟨m₃, k₃, a₃, hm₃, hmk₃, hidle₃, hret₃⟩ := hop n₂
  have hNm₃ : N ≤ m₃ := hNk₁.trans (hn₂.trans hm₃)
  have hNk₃ : N ≤ k₃ := hNm₃.trans hmk₃
  obtain ⟨cluster, hs⟩ := settled_at (hz hNm₃) (later hNm₃) hmk₃ hidle₃ hret₃
  have hem := ((hz hNm₃).settles (htop m₃ (hn₂.trans hm₃)) (hdone m₃ hm₃) hs).2
  refine ⟨k₃, fun n hn => ?_⟩
  obtain ⟨p, hp⟩ := runs_from (later hNk₃) hn (.inr ⟨a₃, hret₃⟩)
  have hem := (hz hNk₃).emptied hem hp
  exact ⟨hem, bare_at hf hb hem⟩

end Behaviour

/-! ## A cluster that is scaled down -/

/-- With no config stored, the condition on deletions is void. -/
theorem zeroProtocol_call (c : Call) (hempty : w.store.configs = []) :
    (zeroProtocol req).call c .ok w = true := by
  cases c with
  | write a =>
    cases a with
    | deleteConfig key =>
      have hrest : ownConfigs req (w.store.removeConfig key) = [] := by
        simp [ownConfigs, Store.configsOf, Store.removeConfig, hempty]
      have hdel : (deletesTopLast req).call (.write (.deleteConfig key)) .ok w = true := by
        simp only [deletesTopLast, hrest]
        rfl
      have htidy : (tidyProtocol req).call (.write (.deleteConfig key)) .ok w = true := rfl
      simp [zeroProtocol, carefulProtocol, Terms.and, htidy, hdel, specUnchanged]
    | _ => rfl
  | _ => rfl

/-- An emptied cluster goes on by the fair schedule. -/
theorem fairly_emptied (hz : Zeroed req w₀ w) (hm : HasEmptied req w)
    (h : Reaches (zeroProtocol req) (reconcile r req) ⟨w, none⟩ t) :
    (zeroProtocol req).allow (fairly t) t = true := by
  obtain ⟨p, hp⟩ := reconcile_runs h
  obtain ⟨cur, -, hem⟩ := hz.emptied hm hp
  obtain ⟨v, running⟩ := t
  have hempty : v.store.configs = [] := hem.empty
  cases running with
  | none =>
    have hstart : fairly ⟨v, none⟩ = .start := fairly_of_done (by rw [hempty]; rfl)
    rw [hstart]
    rfl
  | some m =>
    cases m with
    | ret a => rfl
    | fail e => rfl
    | call c k => exact zeroProtocol_call c hempty

def emptiedSample (s : State server Result) : Bool :=
  s.running.isNone && s.world.store.configs.isEmpty &&
    (s.world.store.redkeys sampleKey).any fun rk =>
      rk.spec.primaries == 0 && rk.status.observedGeneration == rk.generation &&
        rk.status.phase == .ready && rk.status.replicas == 0 && scaledToZero rk

theorem of_emptiedSample (h : emptiedSample s = true) :
    s.running = none ∧ HasEmptied sampleKey s.world := by
  simp only [emptiedSample, Bool.and_eq_true, Option.isNone_iff_eq_none, List.isEmpty_iff] at h
  obtain ⟨⟨hrun, hc⟩, hrk⟩ := h
  obtain ⟨rk, hrk, ht⟩ := (Option.any_eq_true _ _).mp hrk
  simp only [Bool.and_eq_true, beq_iff_eq] at ht
  exact ⟨hrun, rk, hrk, ht.1.1.1.1, hc, ht.1.1.1.2, ht.1.1.2, ht.1.2, ht.2⟩

/-- The cluster is scaled down while Robin works on its first config. -/
def scaledDown : List (Move server) := undisturbed ++ [robinMoves 1 .inProgress, scaleTo 0]

/-- Robin finishes both configs, with a Reconcile before and after. -/
def dismantled : List (Move server) :=
  undisturbed ++ [robinMoves 1 .applied, robinMoves 2 .inProgress, robinMoves 2 .applied] ++
    undisturbed

set_option maxRecDepth 100000 in
theorem halted_cluster_empties_sample :
    ∃ (b : Behaviour (carefulProtocol sampleKey) sampleReconcile ⟨sampleWorld 3, none⟩) (N : Nat),
      SpecKept b N ∧ RobinIsFair b ∧ b.Returns ∧ (b.state N).world.store.configs.length = 1 ∧
        ∃ K, ∀ n, K ≤ n →
          HasEmptied sampleKey (b.state n).world ∧ Bare sampleKey (b.state n).world.store := by
  have hf := fresh_sampleWorld 3
  obtain ⟨s, hs, htest⟩ : ∃ s,
      Reaches (carefulProtocol sampleKey) sampleReconcile ⟨sampleWorld 3, none⟩ s ∧
        (s.running.isNone && (s.world.store.configs.length == 1 &&
          ((s.world.store.redkeys sampleKey).all fun rk => rk.spec.primaries == 0) &&
          (play (zeroProtocol sampleKey) sampleReconcile dismantled s).any emptiedSample)) = true :=
    exists_reaches_of_play scaledDown _ (by decide +kernel)
  simp only [Bool.and_eq_true, Option.isNone_iff_eq_none, beq_iff_eq] at htest
  obtain ⟨hidle, ⟨hlen, hzero⟩, hplay⟩ := htest
  obtain ⟨t, ht, htest⟩ := exists_reaches_of_play dismantled emptiedSample hplay
  obtain ⟨hrun, hem⟩ := of_emptiedSample htest
  obtain ⟨w, running⟩ := s
  obtain ⟨v, running'⟩ := t
  cases hidle
  cases hrun
  have h0 : AsksZero sampleKey w := by
    intro rk hrk
    simpa [hrk] using hzero
  have hz : Zeroed sampleKey (sampleWorld 3) w := by
    obtain ⟨p, hp⟩ := reconcile_runs hs
    exact ⟨hf, hp.silent .quit, h0⟩
  -- both scripts, and then the schedule
  obtain ⟨p, hp⟩ := reconcile_runs ht
  have hcareful := zeroProtocol_careful sampleKey
  have hv : Zeroed sampleKey (sampleWorld 3) v := ⟨hf, (hz.trans hp).silent .quit, (hz.asks hp).1⟩
  have h₀ := hs.trans hcareful ht
  obtain ⟨b₂, hb₂⟩ := exists_fairly hf h₀ hcareful fun t ht => fairly_emptied hv hem ht
  obtain ⟨b₁, M, hb₁⟩ := Behaviour.exists_append ht b₂
  obtain ⟨b, N, hb⟩ := Behaviour.exists_append hs (b₁.weaken hcareful)
  have hrobin₂ : RobinIsFair b₂ := robinIsFair_fairly (b := b₂.weaken hcareful) h₀ hf
    (carefulProtocol_protocol sampleKey) hb₂
  have hret₂ : b₂.Returns := (operatorIsFair_fairly (b := b₂.weaken hcareful) h₀ hf hb₂).returns
  have hrobin : RobinIsFair b :=
    RobinIsFair.of_tail (b := b₁.weaken hcareful) hb (RobinIsFair.of_tail (b := b₂) hb₁ hrobin₂)
  have hret : b.Returns :=
    Behaviour.Returns.of_tail (b := b₁.weaken hcareful) (fun n => (hb n).1)
      (Behaviour.Returns.of_tail (b := b₂) (fun n => (hb₁ n).1) hret₂)
  have hk : SpecKept b N := by
    refine specKept_of_keepsTo fun n hn => ?_
    obtain ⟨i, rfl⟩ := Nat.exists_eq_add_of_le hn
    rw [(hb i).1, (hb i).2]
    exact (Terms.and_right (carefulProtocol sampleKey) (specUnchanged sampleKey)).allow (b₁.allowed i)
  have hN : b.state N = ⟨w, none⟩ := (hb 0).1.trans b₁.init
  refine ⟨b, N, hk, hrobin, hret, by rw [hN]; exact hlen, ?_⟩
  exact halted_cluster_empties hf (bare_sampleWorld 3) b hk (by rw [hN]; exact h0) hrobin hret

end RedkeyOperator.Protocol
