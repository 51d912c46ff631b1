import RedkeyOperator.Controller.Cleanup
import RedkeyOperator.Protocol.NoLostUpdate
import RedkeyOperator.Protocol.Phases

/-! # The newest config is the one asked for

With lists read from the current store, a config is always created at the end of
the queue. Once the operator has created the config of the current generation,
that config is the last one: later Reconciles read no older generation, pruning
never takes the last config, and a scale-down of an older generation is not
resumed. Robin does not set it aside either, as no later one is queued. -/
namespace RedkeyOperator.Protocol
open RedkeyOperator.Api RedkeyOperator.Kube RedkeyOperator.Interleave RedkeyOperator.Controller

variable {T U : Terms server} {req : NamespacedName} {w₀ w w' : World} {p q : Point}
  {cluster cur : Redkey} {configs : List RedkeyConfig}

/-- Further terms that all calls of a run meet. -/
theorem Runs.and (h : Runs T req w₀ p w) (henv : ∀ e w, U.env e w = true)
    (hcall : ∀ p w c o, Runs T req w₀ p w → Issues req p c → T.call c o w = true →
      U.call c o w = true) : Runs (T.and U) req w₀ p w := by
  induction h using Runs.induct with
  | init => exact .init
  | env p e w w' h ok hw ih => exact .env e ih (by simp [Terms.and, ok, henv]) hw
  | enter p w h ih => exact .enter ih
  | silent p q w h hq ih => exact .silent ih hq
  | call p q w w' c o res h hq ok hw ih =>
    exact .call c o res ih hq (by simp [Terms.and, ok, hcall p w c o h hq.issues ok]) hw

/-! ## Observed generations -/

/-- The name of a config to be created is free. -/
theorem Tracks.free (ht : Tracks (.listed cluster configs) w) (ho : Orderly w)
    (hv : Versions req w) (hp : Provenance req w) (hk : cluster.key = req) :
    w.store.config (newConfig cluster (nextSequence configs.getLast?)).key = none := by
  rw [Store.config_eq_none]
  intro d hd he
  have hkey := hp.key hv w.store_mem_history hd
  rw [he, ← hk] at hkey
  have hseq := (configName_injective (NamespacedName.mk.inj hkey).2).2
  obtain ⟨e, hmem, hed⟩ := ht.2.mem_left hd
  have hlt := (ht.2.ascending ho.ascending).lt_nextSequence e hmem
  have := hed.sequence
  omega

theorem Sourced.key (hs : Sourced req p w) (hv : Versions req w) (hp : p.cluster = some cluster) :
    cluster.key = req := by
  obtain ⟨st, hst, hrk⟩ := (hs.readRedkey hp).mem
  exact (hv.of_mem hst hrk).1

/-- Under the protocol no create meets a config of its name. -/
theorem Runs.takesOwn (h : Runs protocol req w₀ p w) (hf : Fresh req w₀) :
    Runs (protocol.and takenBySameGeneration) req w₀ p w := by
  refine h.and (fun _ _ => rfl) fun p w c o h hi _ => ?_
  cases c with
  | write a =>
    cases a with
    | createConfig c =>
      obtain ⟨cluster, configs, rfl, -, rfl⟩ := hi.of_createConfig
      have hv := h.versions hf.versions
      obtain ⟨ho, ht⟩ := h.orderly hf
      have hn := ht.free ho hv (h.provenance hf) ((h.sourced hf.cursors).key hv rfl)
      simp [takenBySameGeneration, hn]
    | _ => rfl
  | _ => rfl

theorem Runs.observedCreated (h : Runs protocol req w₀ p w) (hf : Fresh req w₀)
    (hrk : w.store.redkeys req = some cur) (hpos : 0 < cur.spec.primaries)
    (ho : cur.status.observedGeneration = cur.generation) : CreatedFor w cur.generation := by
  have hcov := ((h.takesOwn hf).weaken (Terms.and_right _ _)).covered hf
  obtain ⟨seq, hc⟩ := hcov.versions _ w.store_mem_history cur hrk hpos ho
  exact ⟨_, hc, newConfig_annotation _ _⟩

/-! ## The last config of the queue -/

/-- Once created, the config of the current generation is the last one. -/
def Newest (req : NamespacedName) (w : World) : Prop :=
  ∀ cur, w.store.redkeys req = some cur → 0 < cur.spec.primaries → CreatedFor w cur.generation →
    ∃ c, w.store.configs.getLast? = some c ∧ MadeFrom cur c ∧ c.phase ≠ .superseded

/-- What a Reconcile works on is the current Redkey, if the config of the current
generation has been created. -/
theorem Leading.current (hl : Leading req p w) (hv : Versions req w) (hs : Sourced req p w)
    (hp : p.cluster = some cluster) (hrk : w.store.redkeys req = some cur)
    (hc : CreatedFor w cur.generation) :
    cluster.generation = cur.generation ∧ cluster.spec = cur.spec ∧ cluster.key = cur.key ∧
      cluster.uid = cur.uid := by
  obtain ⟨st, hst, hcl⟩ := (hs.readRedkey hp).mem
  have hge := (hl.cluster cluster hp).created _ hc
  have hle := ((hv.precedes_store hst).precedes hcl hrk).generation
  have hg : cluster.generation = cur.generation := by omega
  exact ⟨hg, hv.spec_eq hst w.store_mem_history hcl hrk hg,
    (hv.of_mem hst hcl).1.trans (hv.of_mem w.store_mem_history hrk).1.symm,
    hv.uid_eq hst w.store_mem_history hcl hrk⟩

/-- Steps that keep the configs, up to their status, and the current spec. -/
theorem Newest.step (h : Newest req w)
    (hr : ∀ cur, w'.store.redkeys req = some cur → ∃ cur₀, w.store.redkeys req = some cur₀ ∧
      cur₀.spec = cur.spec ∧ cur₀.generation = cur.generation ∧ cur₀.key = cur.key ∧
      cur₀.uid = cur.uid)
    (hc : ∀ g, CreatedFor w' g → CreatedFor w g)
    (hl : ∀ c, w.store.configs.getLast? = some c → c.phase ≠ .superseded →
      ∃ d, w'.store.configs.getLast? = some d ∧ Kin c d ∧ d.phase ≠ .superseded) :
    Newest req w' := by
  intro cur hcur hpos hcr
  obtain ⟨cur₀, hcur₀, hs, hg, hk, hu⟩ := hr cur hcur
  obtain ⟨c, hlast, hm, hph⟩ := h cur₀ hcur₀ (hs ▸ hpos) (hc _ (hg ▸ hcr))
  obtain ⟨d, hd, hkin, hdp⟩ := hl c hlast hph
  refine ⟨d, hd, ?_, hdp⟩
  rw [MadeFrom, hkin.metadata, hkin.spec, hkin.sequence, ← newConfig_congr hk hu hg hs]
  exact hm

theorem createdFor_of_journal (hj : w'.journal = w.journal) {g : Nat} (h : CreatedFor w' g) :
    CreatedFor w g := by
  rw [CreatedFor, hj] at h
  exact h

theorem Newest.same (h : Newest req w) (hr : w'.store.redkeys = w.store.redkeys)
    (hc : w'.store.configs = w.store.configs) (hj : w'.journal = w.journal) : Newest req w' := by
  refine h.step (fun cur hcur => ⟨cur, hr ▸ hcur, rfl, rfl, rfl, rfl⟩)
    (fun g => createdFor_of_journal hj) fun c hl hp => ⟨c, hc ▸ hl, .refl c, hp⟩

/-- A config that Robin sets aside has a later one, so it is not the last. -/
theorem superseded_not_last {c : RedkeyConfig} (ha : Ascending configs)
    (hl : configs.getLast? = some c) : hasLaterQueued configs c = false := by
  rw [hasLaterQueued, List.any_eq_false]
  intro d hd
  have := ha.le_getLast hl d hd
  simp only [Bool.and_eq_true, decide_eq_true_eq, not_and, not_lt]
  exact fun _ => this

theorem robinMay_superseded {c : RedkeyConfig} (h : robinMay configs c .superseded = true)
    (hc : c.phase ≠ .superseded) : hasLaterQueued configs c = true := by
  unfold robinMay at h
  rw [if_neg (Ne.symm hc)] at h
  split at h
  · exact (Bool.and_eq_true_iff.mp h).2
  · simp at h

theorem Newest.robin (h : Newest req w) (ho : Orderly w)
    (hk : (w.store.configs.map RedkeyConfig.key).Nodup) {key : NamespacedName} {c : RedkeyConfig}
    {s : RedkeyConfigStatus} (hc : w.store.config key = some c)
    (hm : robinMay w.store.configs c s.configPhase = true) :
    Newest req (w.commit (w.store.setConfigStatus key s) (moves c s)) := by
  refine h.step (fun cur hcur => ⟨cur, hcur, rfl, rfl, rfl, rfl⟩) ?_ fun d hl hp => ?_
  · rintro g ⟨d, hd, ha⟩
    have hd := (List.mem_append.mp hd).resolve_left fun hm => nomatch (eq_of_mem_moves hm).1
    exact ⟨d, hd, ha⟩
  · simp only [World.store_commit, Store.setConfigStatus, List.getLast?_map, hl, Option.map_some]
    refine ⟨_, rfl, ?_⟩
    split
    · rename_i he
      obtain rfl := Store.eq_of_config hk hc (List.mem_of_getLast? hl) (by simpa using he)
      refine ⟨⟨rfl⟩, fun hsup => ?_⟩
      have hsup : s.configPhase = .superseded := hsup
      rw [hsup] at hm
      have hlater := robinMay_superseded hm hp
      rw [superseded_not_last ho.ascending hl] at hlater
      cases hlater
    · exact ⟨.refl d, hp⟩

theorem Newest.created (hl : Leading req (.listed cluster configs) w) (hv : Versions req w)
    (hs : Sourced req (.listed cluster configs) w) (seq : Nat) :
    Newest req (w.commit { w.store with configs := w.store.configs ++ [newConfig cluster seq] }
      [.created (newConfig cluster seq)]) := by
  intro cur hcur _ hcr
  have hcur : w.store.redkeys req = some cur := hcur
  refine ⟨newConfig cluster seq, by simp, ?_, nofun⟩
  suffices h : newConfig cluster seq = newConfig cur seq by
    rw [h]
    exact madeFrom_newConfig cur seq
  obtain ⟨d, hd, ha⟩ := hcr
  obtain ⟨st, hst, hcl⟩ := hs.1.mem
  rcases List.mem_cons.mp hd with hd | hd
  · -- the one just created is of the current generation
    cases hd
    rw [ newConfig_annotation, Option.some.injEq] at ha
    have hg := formatInt_injective ha
    exact newConfig_congr ((hv.of_mem hst hcl).1.trans (hv.of_mem w.store_mem_history hcur).1.symm)
      (hv.uid_eq hst w.store_mem_history hcl hcur) hg
      (hv.spec_eq hst w.store_mem_history hcl hcur hg) seq
  · obtain ⟨hg, hsp, hk, hu⟩ := hl.current hv hs rfl hcur ⟨d, hd, ha⟩
    exact newConfig_congr hk hu hg hsp seq

/-- Pruning leaves the last config. -/
theorem Newest.pruned {c : RedkeyConfig} {older kept : List RedkeyConfig} (h : Newest req w)
    (ht : Tracks (.pruning cluster (c :: older) kept) w)
    (hk : (w.store.configs.map RedkeyConfig.key).Nodup) (hne : kept ≠ []) {d : RedkeyConfig}
    {last : Bool} :
    Newest req (w.commit (w.store.removeConfig c.key) [.deleted d last]) := by
  refine h.step (fun cur hcur => ⟨cur, hcur, rfl, rfl, rfl, rfl⟩) ?_ fun e hl hp => ?_
  · rintro g ⟨e, he, ha⟩
    exact ⟨e, (List.mem_cons.mp he).resolve_left nofun, ha⟩
  · obtain ⟨x, -, -, hrest, hcs⟩ := Aged.removeConfig ht.2 hk
    refine ⟨e, ?_, .refl e, hp⟩
    have hrne : (w.store.removeConfig c.key).configs ≠ [] := by
      intro hnil
      rw [hnil] at hrest
      simp [hne] at hrest
    obtain ⟨y, ys, hys⟩ := List.exists_cons_of_ne_nil hrne
    rw [World.store_commit, hys]
    rw [hcs, hys, List.getLast?_cons_cons] at hl
    exact hl

/-- Configs are pruned only in front of one that stays. -/
theorem Sourced.kept_ne_nil {c : RedkeyConfig} {older kept : List RedkeyConfig}
    (hs : Sourced req (.pruning cluster (c :: older) kept) w) : kept ≠ [] := by
  obtain ⟨-, -, all, gone, -, htake, rfl⟩ := hs
  obtain ⟨hnil, -⟩ | ⟨a, rest, hkept, -⟩ := (splits_lastApplied all).head
  · simp [hnil] at htake
  · simp [hkept]

theorem Newest.effect (h : Newest req w) (hr : Runs protocol req w₀ p w) (hf : Fresh req w₀)
    (he : Effect protocol req p w w') : Newest req w' := by
  have hv := hr.versions hf.versions
  have hs := hr.sourced hf.cursors
  have hk := (hr.provenance hf).keys _ w.store_mem_history
  have hl := hr.leading hf.toNewborn
  obtain ⟨ho, ht⟩ := hr.orderly hf
  cases he with
  | quiet hq => exact h.same hq.redkeys hq.configs hq.journal
  | sawRedkey => exact h.same rfl rfl rfl
  | sawConfigs => exact h.same rfl rfl rfl
  | updated hi ok hc =>
    refine h.step (fun cur hcur => ?_) (fun g hg => hg) fun c hl hp => ⟨c, hl, .refl c, hp⟩
    obtain ⟨rfl, hreq⟩ | hreq := hv.store_update hc (precedes_withStatus _ _) hcur
    · exact ⟨_, hreq, rfl, rfl, rfl, rfl⟩
    · exact ⟨cur, hreq, rfl, rfl, rfl, rfl⟩
  | created hi ok hn =>
    obtain ⟨cluster, configs, rfl, -, rfl⟩ := hi.of_createConfig
    exact .created hl hv hs _
  | deleted hi ok hc =>
    obtain ⟨cluster, c, older, kept, rfl, rfl⟩ | ⟨cluster, c, items, rfl, rfl⟩ := hi.of_deleteConfig
    · exact h.pruned ht hk hs.kept_ne_nil
    · -- a scale-down of this generation has no primaries
      intro cur hcur hpos hcr
      have hcr : CreatedFor w cur.generation := by
        obtain ⟨e, he, ha⟩ := hcr
        exact ⟨e, (List.mem_cons.mp he).resolve_left nofun, ha⟩
      obtain ⟨-, hsp, -⟩ := hl.current hv hs rfl hcur hcr
      have h0 : cluster.spec.primaries = 0 := hs.2.1
      rw [hsp] at h0
      omega

theorem Runs.newest (h : Runs protocol req w₀ p w) (hf : Fresh req w₀) : Newest req w := by
  refine h.world ?_ ?_ (fun w h => h.same rfl rfl rfl) fun p w w' hr h he => h.effect hr hf he
  · rintro cur - - ⟨c, hc, -⟩
    simp [hf.journal] at hc
  · intro p e w w' hr h ok he
    have hv := hr.versions hf.versions
    have hprov := hr.provenance hf
    cases e with
    | update key spec =>
      obtain ⟨rk, hrk, -, rfl⟩ := env_update he
      intro cur hcur hpos hcr
      obtain ⟨rfl, hreq⟩ | hreq := hv.store_update hrk (precedes_withSpec _ _) hcur
      · -- nothing has been created for the new generation
        have hb := (hr.leading hf.toNewborn).ahead w.now w.store rk
          (hr.cursors hf.cursors).seenRedkey w.history_now hreq
        have hle : rk.generation + 1 ≤ rk.generation := hb.created _ hcr
        omega
      · exact h cur hreq hpos hcr
    | robin key s =>
      obtain ⟨c, hc, rfl⟩ := env_robin he
      exact h.robin (hr.orderly hf).1 (hprov.keys _ w.store_mem_history) hc
        (robinMay_of_protocol ok hc)
    | collect key => exact absurd he (hprov.not_collected hv)

/-- In every run of the protocol, through scale to zero and back and with stale
reads of the Redkey: once the current generation, with primaries, is observed, the stored
config with the highest sequence is the snapshot of its spec, so it is what Robin
has been given last, and Robin has not set it aside. -/
theorem observed_spec_is_newest {r : RedkeyReconciler} {s : State server Result} {rk : Redkey}
    (hf : Fresh req w₀) (h : Reaches protocol (reconcile r req) ⟨w₀, none⟩ s)
    (hrk : s.world.store.redkeys req = some rk) (hpos : 0 < rk.spec.primaries)
    (ho : rk.status.observedGeneration = rk.generation) :
    ∃ c ∈ s.world.store.configs, (∀ d ∈ s.world.store.configs, d.sequence ≤ c.sequence) ∧
      c.metadata.annotations.get generationAnnotation = some (formatInt rk.generation) ∧
      c.spec = configSpec rk.spec c.sequence ∧ c.phase ≠ .superseded := by
  obtain ⟨p, hr⟩ := reconcile_runs h
  obtain ⟨c, hlast, hm, hph⟩ := hr.newest hf rk hrk hpos (hr.observedCreated hf hrk hpos ho)
  exact ⟨c, List.mem_of_getLast? hlast, (hr.orderly hf).1.ascending.le_getLast hlast, hm.annotation,
    hm.2, hph⟩

/-- The sample cluster is scaled down and up again while Robin is at the scale-down. -/
def scaledBack : List (Move server) :=
  undisturbed ++ [robinMoves 1 .inProgress, robinMoves 1 .applied, scaleTo 0] ++ undisturbed ++
    [robinMoves 2 .inProgress, scaleTo 7] ++ undisturbed

set_option maxRecDepth 100000 in
theorem observed_spec_is_newest_sample :
    ∃ s rk, Reaches protocol sampleReconcile ⟨sampleWorld 3, none⟩ s ∧
      s.world.store.configs.map RedkeyConfig.sequence = [1, 2, 3] ∧
      s.world.store.redkeys sampleKey = some rk ∧
      ∃ c ∈ s.world.store.configs, (∀ d ∈ s.world.store.configs, d.sequence ≤ c.sequence) ∧
        c.metadata.annotations.get generationAnnotation = some (formatInt rk.generation) ∧
        c.spec = configSpec rk.spec c.sequence ∧ c.phase ≠ .superseded := by
  obtain ⟨s, hs, ht⟩ : ∃ s, Reaches protocol sampleReconcile ⟨sampleWorld 3, none⟩ s ∧
      (observedRunning s.world &&
        decide (s.world.store.configs.map RedkeyConfig.sequence = [1, 2, 3])) = true :=
    exists_reaches_of_play scaledBack _ (by decide +kernel)
  obtain ⟨hobs, hseq⟩ := Bool.and_eq_true_iff.mp ht
  obtain ⟨rk, hrk, hpos, ho⟩ := of_observedRunning hobs
  exact ⟨s, rk, hs, of_decide_eq_true hseq, hrk,
    observed_spec_is_newest (fresh_sampleWorld 3) hs hrk hpos ho⟩

end RedkeyOperator.Protocol
