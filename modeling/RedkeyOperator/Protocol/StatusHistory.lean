import RedkeyOperator.Protocol.History

/-! # The statuses a Redkey has had

Both status writers replace the whole status. The API server accepts a write
only over the version it was computed from, so the statuses of a Redkey are
those of a sequence of writes, each over the one before: what one write keeps,
every run keeps, however stale the reads are. -/
namespace RedkeyOperator.Protocol
open RedkeyOperator.Api RedkeyOperator.Kube RedkeyOperator.Interleave RedkeyOperator.Controller

variable {T : Terms server} {req : NamespacedName} {w₀ w w' : World} {p : Point}
  {r : RedkeyReconciler} {s : State server Result}

/-! ## One write -/

/-- A write over the status of `cur` that a Reconcile at `p` may send: it takes
the active config of a list it was handed, or has read `cur` without primaries. -/
inductive Authored (req : NamespacedName) (p : Point) (w : World) (cur : Redkey) :
    StatusWrite → Prop where
  | aggregate {cluster : Redkey} {configs : List RedkeyConfig} {active : RedkeyConfig}
      (hp : p.cluster = some cluster) (hr : ReadRedkey req cluster w)
      (hh : Handed cluster configs w) (ha : selectActiveConfig configs = some active) :
      Authored req p w cur (.aggregate cur active cluster.generation)
  | scaledToZero (hp : p.cluster = some cur) (hr : ReadRedkey req cur w)
      (h0 : cur.spec.primaries = 0) : Authored req p w cur (.scaledToZero cur)

theorem Authored.observedGeneration {cur : Redkey} {wr : StatusWrite}
    (h : Authored req p w cur wr) (now : Time) : ∃ cluster, p.cluster = some cluster ∧
      (wr.apply now cur.status).observedGeneration = cluster.generation := by
  cases h with
  | aggregate hp => exact ⟨_, hp, rfl⟩
  | scaledToZero hp => exact ⟨_, hp, rfl⟩

/-- A write that is accepted was computed from the stored Redkey. -/
theorem Issues.authored {rk cur : Redkey} (hi : Issues req p (.write (.updateStatus rk)))
    (hv : Versions req w) (hs : Sourced req p w) (hc : w.store.redkeys rk.key = some cur)
    (hver : rk.resourceVersion = cur.resourceVersion) :
    w.store.redkeys req = some cur ∧
      ∃ wr now, Authored req p w cur wr ∧ rk = { cur with status := wr.apply now cur.status } := by
  obtain ⟨hcur, ⟨cluster, configs, active, now, rfl, ha, rfl⟩ | ⟨now, rfl, rfl⟩⟩ :=
    hi.of_accepted hv hs hc hver
  · obtain ⟨hr, hh, -⟩ := hs
    exact ⟨hcur, _, now, .aggregate rfl hr hh ha, rfl⟩
  · obtain ⟨hr, h0, -⟩ := hs
    exact ⟨hcur, _, now, .scaledToZero rfl hr h0, rfl⟩

/-- How the status of the stored Redkey `rk` goes on in one step. -/
inductive StatusStep (T : Terms server) (req : NamespacedName) (p : Point) (w : World)
    (rk : Redkey) : RedkeyStatus → Prop where
  | same : StatusStep T req p w rk rk.status
  | write {wr : StatusWrite} {now : Time} {o : Outcome} (ha : Authored req p w rk wr)
      (ok : T.call (.write (.updateStatus { rk with status := wr.apply now rk.status })) o w = true) :
      StatusStep T req p w rk (wr.apply now rk.status)

theorem env_status {e : Ev} {rk' : Redkey} (he : env e w = some w') (hv : Versions req w)
    (hrk' : w'.store.redkeys req = some rk') :
    ∃ rk, w.store.redkeys req = some rk ∧ StatusStep T req p w rk rk'.status := by
  cases e with
  | update key spec =>
    obtain ⟨rk, hrk, -, rfl⟩ := env_update he
    obtain ⟨rfl, hreq⟩ | hrk' := hv.store_update hrk (precedes_withSpec _ _) hrk'
    · exact ⟨rk, hreq, .same⟩
    · exact ⟨rk', hrk', .same⟩
  | robin key s =>
    obtain ⟨c, -, rfl⟩ := env_robin he
    exact ⟨rk', hrk', .same⟩
  | collect key =>
    obtain ⟨c, -, -, rfl⟩ := env_collect he
    exact ⟨rk', hrk', .same⟩

theorem Effect.status {rk' : Redkey} (he : Effect T req p w w') (hv : Versions req w)
    (hs : Sourced req p w) (hrk' : w'.store.redkeys req = some rk') :
    ∃ rk, w.store.redkeys req = some rk ∧ StatusStep T req p w rk rk'.status := by
  cases he with
  | quiet hq => exact ⟨rk', hq.redkeys ▸ hrk', .same⟩
  | updated hi ok hc hver =>
    obtain ⟨hcur, wr, now, ha, rfl⟩ := hi.authored hv hs hc hver
    obtain ⟨rfl, -⟩ | hrk' := hv.store_update hc (precedes_withStatus _ _) hrk'
    · exact ⟨_, hcur, .write ha ok⟩
    · exact ⟨rk', hrk', .same⟩
  | _ => exact ⟨rk', hrk', .same⟩

theorem Effect.extends (he : Effect T req p w w') : w.Extends w' := by
  cases he with
  | quiet hq => exact hq.history
  | sawRedkey | sawConfigs => exact .inl rfl
  | updated | created | deleted => exact .inr rfl

/-! ## Every version -/

/-- The store of `w'` is that of `w` or a new version, one step of the status later. -/
structure Advances (T : Terms server) (req : NamespacedName) (p : Point) (w w' : World) : Prop where
  extend : w.Extends w'
  status : ∀ rk', w'.store.redkeys req = some rk' →
    ∃ rk, w.store.redkeys req = some rk ∧ StatusStep T req p w rk rk'.status

theorem Runs.advances {G : World → Prop} (h : Runs T req w₀ p w) (hn : Newborn req w₀) (init : G w₀)
    (enter : ∀ w, G w → G (enter w))
    (step : ∀ p w w', Runs T req w₀ p w → G w → Advances T req p w w' → G w') : G w := by
  refine h.world init ?_ enter ?_
  · intro p e w w' hr hg _ he
    exact step p w w' hr hg ⟨env_extends he, fun _ => env_status he (hr.versions hn.versions)⟩
  · intro p w w' hr hg he
    exact step p w w' hr hg
      ⟨he.extends, fun _ => he.status (hr.versions hn.versions) (hr.sourced hn.cursors)⟩

/-- What holds of the first status and is kept by every step holds of every version. -/
theorem Runs.statuses {P : World → RedkeyStatus → Prop} (h : Runs T req w₀ p w)
    (hn : Newborn req w₀) (init : P w₀ {})
    (mono : ∀ w w' st, (∀ v ∈ w.history, v ∈ w'.history) → P w st → P w' st)
    (step : ∀ p w rk st, Runs T req w₀ p w → w.store.redkeys req = some rk →
      StatusStep T req p w rk st → P w rk.status → P w st) :
    ∀ st ∈ w.history, ∀ rk, st.redkeys req = some rk → P w rk.status := by
  refine h.advances (G := fun w => ∀ st ∈ w.history, ∀ rk, st.redkeys req = some rk →
    P w rk.status) hn ?_ ?_ ?_
  · intro st hst rk hrk
    rw [hn.history, List.mem_singleton] at hst
    obtain ⟨rk₀, hrk₀, -, hs⟩ := hn.redkey
    rw [hst, hrk₀] at hrk
    cases hrk
    rw [hs]
    exact init
  · intro w hall st hst rk hrk
    exact mono w (enter w) _ (fun v hv => hv) (hall st hst rk hrk)
  · intro p w w' hr hall hx st hst rk' hrk'
    refine mono w w' _ (fun v hv => hx.extend.mono hv) ?_
    obtain hst | rfl := hx.extend.mem hst
    · exact hall st hst rk' hrk'
    · obtain ⟨rk, hrk, hs⟩ := hx.status rk' hrk'
      exact step p w rk _ hr hrk hs (hall _ w.store_mem_history rk hrk)

/-- A preorder that every step goes up along orders all versions. -/
theorem Runs.statuses_pairwise {R : RedkeyStatus → RedkeyStatus → Prop} (h : Runs T req w₀ p w)
    (hn : Newborn req w₀) (refl : ∀ a, R a a) (trans : ∀ a b c, R a b → R b c → R a c)
    (step : ∀ p w rk st, Runs T req w₀ p w → w.store.redkeys req = some rk →
      StatusStep T req p w rk st → R rk.status st) :
    w.history.Pairwise fun a b => ∀ rk rk', a.redkeys req = some rk → b.redkeys req = some rk' →
      R rk.status rk'.status := by
  refine h.advances (G := fun w => w.history.Pairwise fun a b => ∀ rk rk',
    a.redkeys req = some rk → b.redkeys req = some rk' → R rk.status rk'.status) hn ?_ ?_ ?_
  · rw [hn.history]
    exact List.pairwise_singleton _ _
  · exact fun w hord => hord
  · intro p w w' hr hord hx
    refine hx.extend.pairwise hord fun a ha rk rk' hrk hrk' => ?_
    -- the status of the store lies between that of the old version and the new one
    obtain ⟨cur, hcur, hs⟩ := hx.status rk' hrk'
    refine trans _ cur.status _ (World.before_store hord ?_ ha rk cur hrk hcur)
      (step p w cur _ hr hcur hs)
    intro b b' hb hb'
    rw [hb] at hb'
    cases hb'
    exact refl _

/-- Every status a Redkey has had is that of a sequence of writes. -/
theorem Runs.replayed (h : Runs T req w₀ p w) (hn : Newborn req w₀) {st : Store}
    (hst : st ∈ w.history) {rk : Redkey} (hrk : st.redkeys req = some rk) :
    ∃ writes, rk.status = replay {} writes := by
  refine h.statuses (P := fun _ s => ∃ writes, s = replay {} writes) hn ⟨[], rfl⟩
    (fun _ _ _ _ h => h) ?_ st hst rk hrk
  rintro p w rk st - - hs ⟨writes, hw⟩
  cases hs with
  | same => exact ⟨writes, hw⟩
  | @write wr now o ha ok =>
    refine ⟨writes ++ [(now, wr)], ?_⟩
    rw [replay_concat, ← hw]

/-- In every run each status a Redkey has had is the empty one it was created with,
or one in which phase and conditions agree. -/
theorem status_coherent (h : Reaches T (reconcile r req) ⟨w₀, none⟩ s) (hn : Newborn req w₀)
    {st : Store} (hst : st ∈ s.world.history) {rk : Redkey} (hrk : st.redkeys req = some rk) :
    rk.status = {} ∨ ∃ writes now last, Coherent [] (writes ++ [(now, last)]) last rk.status := by
  obtain ⟨p, hp⟩ := reconcile_runs h
  obtain ⟨writes, hw⟩ := hp.replayed hn hst hrk
  rw [hw]
  obtain rfl | ⟨writes, ⟨now, last⟩, rfl⟩ := List.eq_nil_or_concat writes
  · exact .inl rfl
  · rw [List.concat_eq_append]
    have htypes : (([] : List Condition).map Condition.type).Nodup := List.nodup_nil
    exact .inr ⟨writes, now, last, (tidy_replay htypes (fun _ hc => by cases hc) _).coherent⟩

/-! ## The recorded topology -/

/-- A config of the cluster has been Applied with primaries and this topology. -/
def WasApplied (req : NamespacedName) (w : World) (t : Nat × Int) : Prop :=
  ∃ st ∈ w.history, ∃ c ∈ st.configsOf clusterLabel req.namespace_ req.name,
    c.phase = .applied ∧ 0 < c.spec.primaries ∧ c.topology = t

/-- The Redkey has had storage. -/
def WasPersistent (req : NamespacedName) (w : World) : Prop :=
  ∃ st ∈ w.history, ∃ rk, st.redkeys req = some rk ∧ rk.spec.ephemeral = false

/-- The config a status is aggregated from is from a version of the store. -/
theorem Handed.stored {cluster : Redkey} {configs : List RedkeyConfig} {active : RedkeyConfig}
    (h : Handed cluster configs w) (ha : active ∈ configs) :
    ∃ st ∈ w.history, active ∈
      st.configsOf clusterLabel cluster.key.namespace_ cluster.key.name := by
  obtain ⟨all, ⟨items, ⟨-, i, st, -, -, hi, hperm⟩, rfl⟩, hc⟩ := h
  have hmem : active ∈ sortBySequence items := by
    obtain ⟨-, rfl⟩ | ⟨-, rfl⟩ := hc
    · exact List.mem_of_mem_drop ha
    · exact ha
  exact ⟨st, List.mem_of_getElem? hi, hperm.mem_iff.mp ((sortBySequence_perm items).mem_iff.mp hmem)⟩

/-- A write records nothing new, or the topology of a config that was Applied. -/
theorem Authored.lastApplied {cur : Redkey} {wr : StatusWrite} (h : Authored req p w cur wr)
    (hv : Versions req w) (hcur : w.store.redkeys req = some cur) (now : Time) :
    (wr.apply now cur.status).lastApplied = cur.status.lastApplied ∨
      WasPersistent req w ∧ WasApplied req w (wr.apply now cur.status).lastApplied := by
  cases h with
  | @aggregate cluster configs active hp hr hh ha =>
    obtain h | ⟨he, hap, hpos, h⟩ := lastApplied_aggregatedStatus now cur active cluster.generation
    · exact .inl h
    · obtain ⟨st, hst, hmem⟩ := hh.stored (selectActiveConfig_mem ha)
      obtain ⟨st', hst', hrk⟩ := hr.mem
      rw [(hv.of_mem hst' hrk).1] at hmem
      exact .inr ⟨⟨_, w.store_mem_history, cur, hcur, he⟩,
        st, hst, active, hmem, hap, hpos, h.symm⟩
  | scaledToZero hp hr h0 => exact .inl rfl

theorem WasApplied.primaries_pos {t : Nat × Int} (h : WasApplied req w t) : 0 < t.1 := by
  obtain ⟨st, -, c, -, -, hpos, rfl⟩ := h
  exact hpos

/-- Every recorded topology is that of one config that was Applied while the
cluster had storage. -/
theorem Runs.recorded (h : Runs T req w₀ p w) (hn : Newborn req w₀) :
    ∀ st ∈ w.history, ∀ rk, st.redkeys req = some rk →
      rk.status.lastApplied = (0, 0) ∨
        WasPersistent req w ∧ WasApplied req w rk.status.lastApplied := by
  refine h.statuses (P := fun w s => s.lastApplied = (0, 0) ∨
    WasPersistent req w ∧ WasApplied req w s.lastApplied) hn (.inl rfl) ?_ ?_
  · rintro w w' st hsub (h0 | ⟨⟨v, hv, he⟩, u, hu, hc⟩)
    · exact .inl h0
    · exact .inr ⟨⟨v, hsub v hv, he⟩, u, hsub u hu, hc⟩
  · intro p w rk st hr hrk hs ih
    cases hs with
    | same => exact ih
    | write ha ok =>
      obtain he | hnew := ha.lastApplied (hr.versions hn.versions) hrk _
      · rw [he]
        exact ih
      · exact .inr hnew

/-- In every run the recorded topology is never cleared, is that of one single
config that was Applied with primaries, and stays unset while the cluster is
ephemeral. -/
theorem recorded_topology_is_stable (hn : Newborn req w₀)
    (h : Reaches T (reconcile r req) ⟨w₀, none⟩ s) :
    (s.world.history.Pairwise fun a b => ∀ rk rk', a.redkeys req = some rk →
      b.redkeys req = some rk' → 0 < rk.status.lastAppliedPrimaries →
        0 < rk'.status.lastAppliedPrimaries) ∧
    (∀ st ∈ s.world.history, ∀ rk, st.redkeys req = some rk →
      rk.status.lastApplied = (0, 0) ∨ WasApplied req s.world rk.status.lastApplied) ∧
    ((∀ st ∈ s.world.history, ∀ rk, st.redkeys req = some rk → rk.spec.ephemeral = true) →
      ∀ st ∈ s.world.history, ∀ rk, st.redkeys req = some rk → rk.status.lastApplied = (0, 0)) := by
  obtain ⟨p, hp⟩ := reconcile_runs h
  have hrec := hp.recorded hn
  refine ⟨?_, fun st hst rk hrk => (hrec st hst rk hrk).imp_right And.right, ?_⟩
  · refine hp.statuses_pairwise
      (R := fun a b => 0 < a.lastAppliedPrimaries → 0 < b.lastAppliedPrimaries)
      hn (fun _ h => h) (fun _ _ _ hab hbc h => hbc (hab h)) ?_
    intro p w rk st hr hrk hs hpos
    cases hs with
    | same => exact hpos
    | write ha ok =>
      obtain he | ⟨-, hnew⟩ := ha.lastApplied (hr.versions hn.versions) hrk _
      · exact hpos.trans_eq (congrArg Prod.fst he).symm
      · exact hnew.primaries_pos
  · intro heph st hst rk hrk
    refine (hrec st hst rk hrk).resolve_right ?_
    rintro ⟨⟨v, hv, rk', hrk', he⟩, -⟩
    rw [heph v hv rk' hrk'] at he
    cases he

/-- The first config of the sample cluster is applied and recorded. -/
def recordFirst : List (Move server) :=
  undisturbed ++ [robinMoves 1 .inProgress, robinMoves 1 .applied] ++ undisturbed

set_option maxRecDepth 100000 in
theorem recorded_topology_is_stable_sample :
    ∃ s rk, Reaches (M := server) .any sampleReconcile ⟨sampleWorld 3, none⟩ s ∧
      s.world.store.redkeys sampleKey = some rk ∧ rk.status.lastApplied = (3, 0) ∧
      WasApplied sampleKey s.world (3, 0) := by
  obtain ⟨s, hs, hrec⟩ : ∃ s, Reaches (M := server) .any sampleReconcile ⟨sampleWorld 3, none⟩ s ∧
      ((s.world.store.redkeys sampleKey).any fun rk => rk.status.lastApplied == (3, 0)) = true :=
    exists_reaches_of_play recordFirst _ (by decide +kernel)
  obtain ⟨rk, hrk, he⟩ := (Option.any_eq_true _ _).mp hrec
  rw [beq_iff_eq] at he
  have hap := (recorded_topology_is_stable (fresh_sampleWorld 3).toNewborn hs).2.1 _
    s.world.store_mem_history rk hrk
  exact ⟨s, rk, hs, hrk, he, he ▸ hap.resolve_left (by simp [he])⟩

end RedkeyOperator.Protocol
