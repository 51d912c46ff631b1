import RedkeyOperator.Protocol.Generations

/-! # No lost spec update

A generation counts as observed only once a config for it exists. Reconcile
relies on this when it asks `needsNewConfig`: a generation that is observed and
has no config would never get one. -/
namespace RedkeyOperator.Protocol
open RedkeyOperator.Api RedkeyOperator.Kube RedkeyOperator.Interleave RedkeyOperator.Controller

variable {T : Terms server} {req : NamespacedName} {w₀ w w' : World} {p q : Point}

/-- A config with the spec and the generation of `rk` has been created. -/
def Announced (w : World) (rk : Redkey) : Prop := ∃ seq, .created (newConfig rk seq) ∈ w.journal

/-- A create that finds its name taken finds a config of the same generation,
unless it asks for no primaries. -/
def takenBySameGeneration : Terms server where
  env _ _ := true
  call c _ w := match c with
    | .write (.createConfig c) => c.spec.primaries == 0 || (w.store.config c.key).all fun d =>
        d.metadata.annotations.get generationAnnotation ==
          c.metadata.annotations.get generationAnnotation
    | _ => true

/-- The Redkey whose generation a Reconcile is going to stamp. -/
def Point.stamps : Point → Option Redkey
  | .created rk | .pruning rk _ _ | .aggregating rk _ | .refetched rk _ _ => some rk
  | _ => none

structure Covered (req : NamespacedName) (p : Point) (w : World) : Prop where
  versions : ∀ st ∈ w.history, ∀ rk, st.redkeys req = some rk → 0 < rk.spec.primaries →
    rk.status.observedGeneration = rk.generation → Announced w rk
  stamps : ∀ rk, p.stamps = some rk → 0 < rk.spec.primaries → Announced w rk

/-- Versions of one generation are announced together. -/
theorem Announced.congr (hv : Versions req w) {a b : Store} (ha : a ∈ w.history)
    (hb : b ∈ w.history) {rk rk' : Redkey} (hrk : a.redkeys req = some rk)
    (hrk' : b.redkeys req = some rk') (hg : rk.generation = rk'.generation)
    (h : Announced w rk) : Announced w rk' := by
  obtain ⟨seq, hc⟩ := h
  refine ⟨seq, ?_⟩
  rwa [newConfig_congr ((hv.of_mem hb hrk').1.trans (hv.of_mem ha hrk).1.symm)
    (hv.uid_eq hb ha hrk' hrk) hg.symm (hv.spec_eq hb ha hrk' hrk hg.symm)]

/-- A config of the generation of `rk` that was ever stored announces it. -/
theorem Provenance.announced (hp : Provenance req w) (hv : Versions req w) {st : Store}
    (hs : st ∈ w.history) {c : RedkeyConfig} (hc : c ∈ st.configs) {a : Store} (ha : a ∈ w.history)
    {rk : Redkey} (hrk : a.redkeys req = some rk)
    (hg : c.metadata.annotations.get generationAnnotation = some (formatInt rk.generation)) :
    Announced w rk := by
  obtain ⟨rk', ⟨⟨b, hb, hrk'⟩, hcr⟩, hm⟩ := hp.made st hs c hc
  rw [hm.annotation, Option.some.injEq] at hg
  exact Announced.congr hv hb ha hrk' hrk (formatInt_injective hg) ⟨_, hcr⟩

/-- Versions that the step has not stamped are covered as before. -/
theorem Covered.step (h : Covered req p w) (hh : w.Extends w')
    (hj : ∀ x ∈ w.journal, x ∈ w'.journal)
    (hn : ∀ rk, w'.store.redkeys req = some rk → 0 < rk.spec.primaries →
      rk.status.observedGeneration = rk.generation → w.store.redkeys req = some rk ∨ Announced w' rk) :
    Covered req p w' := by
  have grow : ∀ rk, Announced w rk → Announced w' rk := fun rk ⟨seq, hc⟩ => ⟨seq, hj _ hc⟩
  refine ⟨fun st hst rk hrk hpos ho => ?_, fun rk hrk hpos => grow rk (h.stamps rk hrk hpos)⟩
  obtain hst | rfl := hh.mem hst
  · exact grow rk (h.versions st hst rk hrk hpos ho)
  · obtain hrk | ha := hn rk hrk hpos ho
    · exact grow rk (h.versions _ w.store_mem_history rk hrk hpos ho)
    · exact ha

theorem Covered.inert (h : Covered req p w) (hi : Inert w w') : Covered req p w' := by
  obtain ⟨hs, hj, -⟩ := hi.journal
  exact h.step hi.history (fun x hx => by simp [hj, hx]) fun rk hrk _ _ => .inl (hi.redkeys ▸ hrk)

theorem Covered.env {e : Ev} (h : Covered req p w) (hv : Versions req w) (hp : Provenance req w)
    (hl : Leading req p w) (hc : Cursors w) (he : env e w = some w') : Covered req p w' := by
  cases e with
  | update key spec =>
    obtain ⟨rk, hrk, -, rfl⟩ := env_update he
    refine h.step (.inr rfl) (fun x hx => hx) fun rk' hrk' _ ho => ?_
    obtain ⟨rfl, hrk⟩ | hrk' := hv.store_update hrk (precedes_withSpec _ _) hrk'
    · have hle := (hl.ahead w.now w.store rk hc.seenRedkey w.history_now hrk).observed _
        w.store_mem_history rk hrk
      have ho : rk.status.observedGeneration = rk.generation + 1 := ho
      omega
    · exact .inl hrk'
  | robin key s => obtain ⟨c, -, rfl⟩ := env_robin he; exact h.inert inert_robin
  | collect key => exact absurd he (hp.not_collected hv)

theorem Covered.effect (h : Covered req p w) (hv : Versions req w) (hs : Sourced req p w)
    (he : Effect T req p w w') : Covered req p w' := by
  cases he with
  | quiet hq => exact h.inert (inert_quiet hq)
  | sawRedkey => exact h.inert ⟨rfl, .inl rfl, ⟨[], rfl, by simp⟩, le_max_left _ _⟩
  | sawConfigs => exact h.inert ⟨rfl, .inl rfl, ⟨[], rfl, by simp⟩, le_rfl⟩
  | deleted => exact h.inert ⟨rfl, .inr rfl, ⟨_, rfl, by simp⟩, le_rfl⟩
  | created =>
    exact h.step (.inr rfl) (fun x hx => List.mem_cons_of_mem _ hx) fun _ hrk _ _ => .inl hrk
  | @updated rk cur o hi ok hcur hver =>
    refine h.step (.inr rfl) (fun x hx => hx) fun rk' hrk' hpos ho => ?_
    obtain ⟨rfl, hreq⟩ | hrk' := hv.store_update hcur (precedes_withStatus _ _) hrk'
    · -- the stamped generation is the one the Reconcile has read
      obtain ⟨cluster, hp, hobs⟩ := hi.observedGeneration
      obtain ⟨st, hst, hcl⟩ := (hs.readRedkey hp).mem
      have hg : cluster.generation = cur.generation := hobs.symm.trans ho
      have hspec := hv.spec_eq hst w.store_mem_history hcl hreq hg
      have hpos : 0 < cluster.spec.primaries := hspec ▸ hpos
      have hann : Announced w cluster := by
        obtain ⟨cl, _, _, _, _, rfl, -, -⟩ | ⟨cl, _, rfl, -⟩ := hi.of_updateStatus
        · cases hp
          exact h.stamps _ rfl hpos
        · cases hp
          exact absurd hs.2.1 hpos.ne'
      obtain ⟨seq, hc⟩ := Announced.congr hv hst w.store_mem_history hcl hreq hg hann
      exact .inr ⟨seq, hc⟩
    · exact .inl hrk'

/-- A config list read that does not ask for a new config has one for the
generation, or the generation has been observed. -/
theorem Covered.reuse {cluster : Redkey} {configs : List RedkeyConfig}
    (h : Covered req (.listed cluster configs) w) (hv : Versions req w) (hp : Provenance req w)
    (hl : Leading req (.listed cluster configs) w) (hs : Sourced req (.listed cluster configs) w)
    (h0 : cluster.spec.primaries ≠ 0) (hc : ¬ Creates cluster configs) : Announced w cluster := by
  rw [Creates, if_neg h0, not_or, Bool.not_eq_true] at hc
  obtain ⟨st, hst, hcl⟩ := hs.1.mem
  have hb := hl.cluster cluster rfl
  obtain ⟨c, g, hlast, hg, hle⟩ | ho := needsNewConfig_eq_false hc.2
  · obtain ⟨items, ⟨-, i, st', -, -, hst', hperm⟩, rfl⟩ := hs.2
    have hst' := List.mem_of_getElem? hst'
    rw [(hv.of_mem hst hcl).1, hp.configsOf hv hst'] at hperm
    have hmem : c ∈ st'.configs :=
      hperm.mem_iff.mp (mem_sortBySequence.mp (List.mem_of_getLast? hlast))
    obtain ⟨rk', ⟨⟨b, hbm, hrk'⟩, hcr⟩, hm⟩ := hp.made st' hst' c hmem
    rw [hm.annotated (hv.of_mem hbm hrk').2, Option.some.injEq] at hg
    have hle' : rk'.generation ≤ cluster.generation :=
      hb.created _ ⟨_, hcr, newConfig_annotation _ _⟩
    refine Announced.congr hv hbm hst hrk' hcl (by omega) ⟨_, hcr⟩
  · exact h.versions st hst cluster hcl (Nat.pos_of_ne_zero h0)
      (le_antisymm (hb.observed st hst cluster hcl) ho)

/-- A create that succeeds, or finds a config of its generation, announces it. -/
theorem announced_of_create {cluster : Redkey} {configs : List RedkeyConfig} {o : Outcome}
    {res : Except ApiError Unit} (hv : Versions req w) (hp : Provenance req w)
    (hs : Sourced req (.listed cluster configs) w) (h0 : 0 < cluster.spec.primaries)
    (ok : takenBySameGeneration.call
      (.write (.createConfig (newConfig cluster (nextSequence configs.getLast?)))) o w = true)
    (hr : res = .ok () ∨ res = .error .alreadyExists)
    (hw : answer (.write (.createConfig (newConfig cluster (nextSequence configs.getLast?)))) o w =
      some (res, w')) : Announced w' cluster := by
  obtain rfl | rfl := hr
  · obtain ⟨st, hst, rfl⟩ := answer_write_ok hw
    exact ⟨_, List.mem_cons_self⟩
  · obtain ⟨rfl, he⟩ := answer_write_rejected hw (by decide)
    obtain ⟨d, hd⟩ := Option.isSome_iff_exists.mp (apply_createConfig_error he).2
    have hpr : (newConfig cluster (nextSequence configs.getLast?)).spec.primaries ≠ 0 := h0.ne'
    simp only [takenBySameGeneration, hd, Option.all_some, Bool.or_eq_true, beq_iff_eq,
      newConfig_annotation] at ok
    obtain ⟨st, hst, hcl⟩ := hs.1.mem
    exact hp.announced hv w'.store_mem_history (Store.config_mem hd).1 hst hcl (ok.resolve_left hpr)

theorem Runs.covered (h : Runs takenBySameGeneration req w₀ p w) (hf : Fresh req w₀) :
    Covered req p w := by
  induction h using Runs.induct with
  | init =>
    obtain ⟨rk₀, hrk₀, hg₀, hst₀⟩ := hf.redkey
    refine ⟨fun st hst rk hrk _ ho => ?_, fun rk hrk => by cases hrk⟩
    rw [hf.history, List.mem_singleton] at hst
    rw [hst, hrk₀] at hrk
    cases hrk
    simp [hst₀, hg₀] at ho
  | env p e w w' h ok hw ih =>
    exact ih.env (h.versions hf.versions) (h.provenance hf) (h.leading hf.toNewborn)
      (h.cursors hf.cursors) hw
  | enter p w h ih =>
    have hcov : Covered req p (enter w) :=
      ih.inert ⟨rfl, .inl rfl, ⟨[], rfl, by simp⟩, le_rfl⟩
    exact ⟨hcov.versions, fun rk hrk => by cases hrk⟩
  | silent p q w h hq ih =>
    refine ⟨ih.versions, fun rk hrk hpos => ?_⟩
    cases hq with
    | reuse h0 hc =>
      cases hrk
      exact ih.reuse (h.versions hf.versions) (h.provenance hf) (h.leading hf.toNewborn)
        (h.sourced hf.cursors)
        h0 hc
    | pruned => exact ih.stamps rk hrk hpos
    | again => exact ih.stamps rk hrk hpos
    | await ha =>
      cases hrk
      exact absurd ha.1 hpos.ne'
    | _ => cases hrk
  | call p q w w' c o res h hq ok hw ih =>
    have hv := h.versions hf.versions
    have hs := h.sourced hf.cursors
    have hcov := ih.effect hv hs (hq.issues.effect ok hw)
    refine ⟨hcov.versions, fun rk hrk hpos => ?_⟩
    cases hq with
    | create hc hr =>
      cases hrk
      exact announced_of_create hv (h.provenance hf) hs hpos ok hr hw
    | stay => exact hcov.stamps rk hrk hpos
    | relist => exact hcov.stamps rk hrk hpos
    | prune => exact hcov.stamps rk hrk hpos
    | refetch => exact hcov.stamps rk hrk hpos
    | retryRead => exact hcov.stamps rk hrk hpos
    | retryUpdate => exact hcov.stamps rk hrk hpos
    | _ => cases hrk

/-- In every run in which a create never takes a config of another generation
for its own, an observed generation has its config: one with its annotation and
the snapshot of its spec. -/
theorem observed_generation_has_config {r : RedkeyReconciler} {s : State server Result} {rk : Redkey}
    (hf : Fresh req w₀) (h : Reaches takenBySameGeneration (reconcile r req) ⟨w₀, none⟩ s)
    (hrk : s.world.store.redkeys req = some rk) (hpos : 0 < rk.spec.primaries)
    (ho : rk.status.observedGeneration = rk.generation) :
    ∃ c, .created c ∈ s.world.journal ∧
      c.metadata.annotations.get generationAnnotation = some (formatInt rk.generation) ∧
      c.spec = configSpec rk.spec c.sequence := by
  obtain ⟨p, hp⟩ := reconcile_runs h
  obtain ⟨seq, hc⟩ := (hp.covered hf).versions _ s.world.store_mem_history rk hrk hpos ho
  exact ⟨_, hc, newConfig_annotation _ _, rfl⟩

/-- The sample cluster's generation is observed. -/
def observedRunning (w : World) : Bool :=
  (w.store.redkeys sampleKey).any fun rk =>
    decide (0 < rk.spec.primaries) && rk.status.observedGeneration == rk.generation

theorem of_observedRunning (h : observedRunning w = true) :
    ∃ rk, w.store.redkeys sampleKey = some rk ∧ 0 < rk.spec.primaries ∧
      rk.status.observedGeneration = rk.generation := by
  obtain ⟨rk, hrk, h⟩ := (Option.any_eq_true _ _).mp h
  simp only [Bool.and_eq_true, decide_eq_true_eq, beq_iff_eq] at h
  exact ⟨rk, hrk, h⟩

set_option maxRecDepth 100000 in
/-- One Reconcile of the sample cluster observes its first generation. -/
theorem observed_generation_has_config_sample :
    ∃ s rk, Reaches takenBySameGeneration sampleReconcile ⟨sampleWorld 3, none⟩ s ∧
      s.world.store.redkeys sampleKey = some rk ∧
      ∃ c, .created c ∈ s.world.journal ∧
        c.metadata.annotations.get generationAnnotation = some (formatInt rk.generation) ∧
        c.spec = configSpec rk.spec c.sequence := by
  obtain ⟨s, hs, ht⟩ : ∃ s, Reaches takenBySameGeneration sampleReconcile ⟨sampleWorld 3, none⟩ s ∧
      observedRunning s.world = true := exists_reaches_of_play undisturbed _ (by decide +kernel)
  obtain ⟨rk, hrk, hpos, ho⟩ := of_observedRunning ht
  exact ⟨s, rk, hs, hrk, observed_generation_has_config (fresh_sampleWorld 3) hs hrk hpos ho⟩

/-- Two Reconciles over two generations. The first has listed no configs when
the spec changes, creates the config of generation 1 and does not see it yet.
The second reads generation 2, still lists no configs, and its create finds the
name taken: it relists, and stamps generation 2 from the config of generation 1. -/
def lostUpdate : List (Move server) :=
  [.event .start, .drain .ok 11, scaleTo 5, .drain .ok 2,
    .event (.call (.stale 4 [])), .drain .ok 10, .event .stop,
    .event .start, .event (.call (.stale 5 [])), .drain .ok 4,
    .event (.call (.stale 5 [])), .drain .ok 20, .event .stop]

/-- The sample cluster's generation is observed and has no config. -/
def observedWithoutConfig (w : World) : Bool :=
  observedRunning w && (w.store.redkeys sampleKey).all fun rk => w.journal.all fun
    | .created c => c.metadata.annotations.get generationAnnotation != some (formatInt rk.generation)
    | _ => true

set_option maxRecDepth 100000 in
theorem observed_generation_can_lack_config :
    ¬ ∀ (r : RedkeyReconciler) (req : NamespacedName) (w₀ : World) (s : State server Result)
      (rk : Redkey), Fresh req w₀ → Reaches .any (reconcile r req) ⟨w₀, none⟩ s →
      s.world.store.redkeys req = some rk → 0 < rk.spec.primaries →
      rk.status.observedGeneration = rk.generation →
      ∃ c, .created c ∈ s.world.journal ∧
        c.metadata.annotations.get generationAnnotation = some (formatInt rk.generation) ∧
        c.spec = configSpec rk.spec c.sequence := by
  intro hall
  obtain ⟨s, hs, ht⟩ : ∃ s, Reaches (M := server) .any sampleReconcile ⟨sampleWorld 3, none⟩ s ∧
      observedWithoutConfig s.world = true := exists_reaches_of_play lostUpdate _ (by decide +kernel)
  obtain ⟨ht, hn⟩ := Bool.and_eq_true_iff.mp ht
  obtain ⟨rk, hrk, hpos, ho⟩ := of_observedRunning ht
  obtain ⟨c, hc, ha, -⟩ := hall _ _ _ s rk (fresh_sampleWorld 3) hs hrk hpos ho
  simp only [hrk, Option.all_some, List.all_eq_true] at hn
  simpa [ha] using hn _ hc

end RedkeyOperator.Protocol
