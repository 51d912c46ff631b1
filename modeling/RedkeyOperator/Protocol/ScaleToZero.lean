import RedkeyOperator.Protocol.Baseline
import RedkeyOperator.Protocol.Generations

/-! # Scaling down to zero

`reconcileScaleToZero` decides by the highest config alone: it waits for Robin
or removes the operator's objects because of that config, whether or not it was
created for the spec that is asked for now, and it decides again from whatever
configs an interrupted deletion has left. -/
namespace RedkeyOperator.Protocol
open RedkeyOperator.Api RedkeyOperator.Kube RedkeyOperator.Interleave RedkeyOperator.Controller

variable {T : Terms server} {req : NamespacedName} {w₀ w w' : World} {p q : Point}
  {r : RedkeyReconciler} {s : State server Result}

/-! ## The scale-down that is asked for -/

/-- The highest config of the list read last. -/
def topListed (w : World) : Option RedkeyConfig :=
  w.listed.bind fun items => (sortBySequence items).getLast?

/-- A Reconcile of a cluster without primaries acts on `z` by this call: it
stamps the status while Robin has `z`, or deletes objects because `z` is Applied. -/
def actsOn (z : RedkeyConfig) : Call → Bool
  | .write (.updateStatus rk) => isAggregated rk
  | .write (.delete _ _) => z.phase == .applied
  | _ => false

/-- `z` was created from the Redkey the Reconcile has read. -/
def CreatedFrom (w : World) (cluster : Redkey) (z : RedkeyConfig) : Prop :=
  .created (newConfig cluster z.sequence) ∈ w.journal ∧ MadeFrom cluster z

/-- The annotation of `z` is not older than the generation read. -/
def upToDate (cluster : Redkey) (z : RedkeyConfig) : Bool :=
  (annotatedGeneration z).any fun g => decide ((cluster.generation : Int) ≤ g)

/-- Where a Reconcile acts on the highest config, and what it has read. -/
theorem Issues.acts {c : Call} {cluster : Redkey} {z : RedkeyConfig} (hi : Issues req p c)
    (hs : Sourced req p w) (hsnap : w.snapshot = some cluster) (h0 : cluster.spec.primaries = 0)
    (ha : actsOn z c = true) :
    p.cluster = some cluster ∧ ∃ configs, ReadConfigs cluster configs w := by
  cases c with
  | write a =>
    cases a with
    | updateStatus rk =>
      obtain ⟨cl, configs, latest, active, now, rfl, -, rfl⟩ | ⟨cl, now, rfl, rfl⟩ :=
        hi.of_updateStatus
      · have hcl := hs.1.snapshot
        rw [hsnap, Option.some.injEq] at hcl
        subst hcl
        obtain ⟨-, ⟨all, hread, -⟩, -⟩ := hs
        exact ⟨rfl, all, hread⟩
      · obtain ⟨c, hc, hr⟩ := reason_scaledToZeroStatus now cl
        simp [actsOn, isAggregated, hc, hr] at ha
    | delete k key =>
      have hlisted : ∀ {cl : Redkey} {configs : List RedkeyConfig},
          Sourced req (.listed cl configs) w → some cl = some cluster ∧ ReadConfigs cl configs w :=
        fun h => ⟨h.1.snapshot.symm.trans hsnap, h.2⟩
      cases hi with
      | free hc => cases hc
      | dismantle hd =>
        obtain ⟨hcl, hread⟩ := hlisted hs
        cases hcl
        exact ⟨rfl, _, hread⟩
      | ensure hp hc =>
        cases p with
        | got cl =>
          have hcl := ReadRedkey.snapshot hs
          rw [hsnap, Option.some.injEq] at hcl
          exact absurd (hcl ▸ h0) hp
        | listed cl configs =>
          obtain ⟨hcl, hread⟩ := hlisted hs
          cases hcl
          exact ⟨rfl, _, hread⟩
        | _ => cases hp
    | _ => cases ha
  | _ => cases ha

theorem ReadConfigs.top {cluster : Redkey} {configs : List RedkeyConfig} {z : RedkeyConfig}
    (h : ReadConfigs cluster configs w) (hz : topListed w = some z) :
    ∃ st ∈ w.history, z ∈ st.configs := by
  obtain ⟨items, ⟨hl, i, st, -, -, hst, hperm⟩, -⟩ := h
  rw [topListed, hl, Option.bind_some] at hz
  have hmem := hperm.mem_iff.mp (mem_sortBySequence.mp (List.mem_of_getLast? hz))
  exact ⟨st, List.mem_of_getElem? hst, List.mem_of_mem_filter hmem⟩

/-- The annotation tells which spec a config was created from, and nothing is
created for generations beyond the one read. -/
theorem createdFrom_iff (hr : Runs T req w₀ p w) (hf : Fresh req w₀) {cluster : Redkey}
    (hp : p.cluster = some cluster) {st : Store} (hst : st ∈ w.history) {z : RedkeyConfig}
    (hz : z ∈ st.configs) : CreatedFrom w cluster z ↔ upToDate cluster z = true := by
  have hv := hr.versions hf.versions
  obtain ⟨sc, hsc, hcl⟩ := ((hr.sourced hf.cursors).readRedkey hp).mem
  constructor
  · rintro ⟨-, hm⟩
    rw [upToDate, hm.annotated (hv.of_mem hsc hcl).2]
    simp
  · intro hup
    obtain ⟨rk, hsent, hm⟩ := (hr.provenance hf).made st hst z hz
    obtain ⟨sr, hsr, hrk⟩ := hsent.version
    rw [upToDate, hm.annotated (hv.of_mem hsr hrk).2, Option.any_some, decide_eq_true_eq] at hup
    have heq := hsent.newConfig_eq hv ⟨sc, hsc, hcl⟩
      ((hr.leading hf.toNewborn).cluster cluster hp) (by exact_mod_cast hup)
    rw [CreatedFrom, MadeFrom, ← heq]
    exact ⟨hsent.created, hm⟩

/-- In every run, whatever Robin does and however stale the reads are: the
scale-down a Reconcile acts on is the one its Redkey asks for, with its
`deletePVC`, if and only if its config is not older than that Redkey. -/
theorem teardown_is_requested_iff (hf : Fresh req w₀)
    (h : Reaches T (reconcile r req) ⟨w₀, none⟩ s) {c : Call} {cluster : Redkey} {z : RedkeyConfig}
    (hc : pendingCall s = some c) (hs : s.world.snapshot = some cluster)
    (h0 : cluster.spec.primaries = 0) (hz : topListed s.world = some z) (ha : actsOn z c = true) :
    CreatedFrom s.world cluster z ↔ upToDate cluster z = true := by
  obtain ⟨p, hr, hi⟩ := reconcile_pending h hc
  obtain ⟨hp, configs, hread⟩ := hi.acts (hr.sourced hf.cursors) hs h0 ha
  obtain ⟨st, hst, hmem⟩ := hread.top hz
  exact createdFrom_iff hr hf hp hst hmem

/-- The pending call of the sample cluster acts on its highest config, which has
no primaries, and this is what its spec and that of the Redkey say of PVCs. -/
def actsWith (s : State server Result) : Option (Option Bool × Option Bool) :=
  (pendingCall s).bind fun c => s.world.snapshot.bind fun cluster =>
    (topListed s.world).bind fun z =>
      if cluster.spec.primaries = 0 ∧ z.spec.primaries = 0 ∧ actsOn z c = true then
        some (z.spec.deletePVC, cluster.spec.deletePVC)
      else none

theorem of_actsWith {a b : Option Bool} (h : actsWith s = some (a, b)) :
    ∃ c cluster z, pendingCall s = some c ∧ s.world.snapshot = some cluster ∧
      topListed s.world = some z ∧ cluster.spec.primaries = 0 ∧ z.spec.primaries = 0 ∧
      actsOn z c = true ∧ z.spec.deletePVC = a ∧ cluster.spec.deletePVC = b := by
  obtain ⟨c, hc, h⟩ := Option.bind_eq_some_iff.mp h
  obtain ⟨cluster, hs, h⟩ := Option.bind_eq_some_iff.mp h
  obtain ⟨z, hz, h⟩ := Option.bind_eq_some_iff.mp h
  split at h
  · rename_i hcond
    cases h
    exact ⟨c, cluster, z, hc, hs, hz, hcond.1, hcond.2.1, hcond.2.2, rfl, rfl⟩
  · cases h

/-- The user asks for PVCs to be deleted, with no primaries. -/
def deletePVCs : Move server :=
  .event (.env (.update sampleKey { sampleSpec 0 with deletePVC := some true }))

/-- The sample cluster is being scaled down, and Robin has the config of that. -/
def haltPending : List (Move server) :=
  undisturbed ++ [robinMoves 1 .inProgress, robinMoves 1 .applied] ++ undisturbed ++
    [scaleTo 0] ++ undisturbed

set_option maxRecDepth 100000 in
/-- Without further edits the scale-down is the one asked for. -/
theorem teardown_is_requested_iff_sample :
    ∃ s cluster z, Reaches (protocol.and robinSkips) sampleReconcile ⟨sampleWorld 3, none⟩ s ∧
      s.world.snapshot = some cluster ∧ topListed s.world = some z ∧
      (CreatedFrom s.world cluster z ↔ upToDate cluster z = true) := by
  obtain ⟨s, hs, ht⟩ : ∃ s,
      Reaches (protocol.and robinSkips) sampleReconcile ⟨sampleWorld 3, none⟩ s ∧
        decide (actsWith s = some (some false, some false)) = true :=
    exists_reaches_of_play (haltPending ++ [.event .start, .drain .ok 8]) _ (by decide +kernel)
  obtain ⟨c, cluster, z, hc, hsnap, hz, h0, -, ha, -⟩ := of_actsWith (of_decide_eq_true ht)
  exact ⟨s, cluster, z, hs, hsnap, hz,
    teardown_is_requested_iff (fresh_sampleWorld 3) hs hc hsnap h0 hz ha⟩

set_option maxRecDepth 100000 in
/-- The user asks for PVCs to be deleted after the config of the scale-down was
created: the new generation is stamped, and Robin keeps them. -/
theorem teardown_can_be_outdated :
    ¬ ∀ (r : RedkeyReconciler) (req : NamespacedName) (w₀ : World) (s : State server Result)
      (c : Call) (cluster : Redkey) (z : RedkeyConfig), Fresh req w₀ →
      Reaches (protocol.and robinSkips) (reconcile r req) ⟨w₀, none⟩ s → pendingCall s = some c →
      s.world.snapshot = some cluster → cluster.spec.primaries = 0 → topListed s.world = some z →
      z.spec.primaries = 0 → actsOn z c = true → CreatedFrom s.world cluster z := by
  intro hall
  obtain ⟨s, hs, ht⟩ : ∃ s,
      Reaches (protocol.and robinSkips) sampleReconcile ⟨sampleWorld 3, none⟩ s ∧
        decide (actsWith s = some (some false, some true)) = true :=
    exists_reaches_of_play (haltPending ++ [deletePVCs, .event .start, .drain .ok 8]) _
      (by decide +kernel)
  obtain ⟨c, cluster, z, hc, hsnap, hz, h0, hz0, ha, hpvc, hpvc'⟩ :=
    of_actsWith (of_decide_eq_true ht)
  have hm := (hall _ _ _ s c cluster z (fresh_sampleWorld 3) hs hc hsnap h0 hz hz0 ha).2
  have : z.spec.deletePVC = cluster.spec.deletePVC := by rw [hm.2]; rfl
  rw [hpvc, hpvc'] at this
  cases this

/-! ## Interrupted teardowns -/

/-- The configs of the cluster. -/
def ownConfigs (req : NamespacedName) (st : Store) : List RedkeyConfig :=
  st.configsOf clusterLabel req.namespace_ req.name

/-- Robin is done with `z` and it has no primaries. -/
def isHalt (z : RedkeyConfig) : Bool := z.spec.primaries == 0 && z.phase == .applied

/-- The highest config is a finished scale-down. -/
def haltedTop (configs : List RedkeyConfig) : Bool :=
  configs.any fun z => isHalt z && configs.all fun c => c.key == z.key || decide (c.sequence < z.sequence)

/-- The calls of a teardown: no object is created or brought back. -/
def movesForward : Call → Bool
  | .write (.createConfig _) | .write (.create _ _) | .write (.patch _ _) => false
  | _ => true

/-- The cluster is to be scaled down, and Robin is done; what other configs
there are, and what has happened before, is left open. -/
structure Halted (req : NamespacedName) (w : World) : Prop where
  keyed : ∀ key rk, w.store.redkeys key = some rk → rk.key = key
  redkey : ∃ rk, w.store.redkeys req = some rk ∧ rk.spec.primaries = 0
  names : (w.store.configs.map RedkeyConfig.key).Nodup
  top : haltedTop (ownConfigs req w.store) = true

/-- The spec stays as it is, and configs have an owner. -/
def specUnchanged (req : NamespacedName) : Terms server where
  env e _ := match e with
    | .update key _ => key != req
    | .robin _ _ => true
    | .collect _ => false
  call _ _ _ := true

def haltedProtocol (req : NamespacedName) : Terms server :=
  protocol.and (currentGets.and (specUnchanged req))

/-- A config is deleted only when the highest one of those that are left is a
finished scale-down. -/
def deletesUpward (req : NamespacedName) : Terms server where
  env _ _ := true
  call c _ w := match c with
    | .write (.deleteConfig key) =>
      let rest := ownConfigs req (w.store.removeConfig key)
      rest.isEmpty || haltedTop rest
    | _ => true

theorem haltedTop_iff {configs : List RedkeyConfig} : haltedTop configs = true ↔
    ∃ z ∈ configs, isHalt z = true ∧ ∀ c ∈ configs, c.key = z.key ∨ c.sequence < z.sequence := by
  simp [haltedTop]

theorem isHalt_iff {z : RedkeyConfig} :
    isHalt z = true ↔ z.spec.primaries = 0 ∧ z.phase = .applied := by
  simp [isHalt]

/-- The invariant of a teardown and its interruptions. -/
structure Halting (req : NamespacedName) (w : World) : Prop where
  keyed : ∀ key rk, w.store.redkeys key = some rk → rk.key = key
  redkey : ∀ rk, w.store.redkeys req = some rk → rk.spec.primaries = 0
  names : (w.store.configs.map RedkeyConfig.key).Nodup
  top : ownConfigs req w.store = [] ∨ haltedTop (ownConfigs req w.store) = true

/-- What a Reconcile has read of such a cluster. -/
structure HaltingAt (req : NamespacedName) (p : Point) : Prop where
  cluster : ∀ rk, p.cluster = some rk → rk.key = req ∧ rk.spec.primaries = 0
  listed : ∀ rk configs z, p = .listed rk configs → configs.getLast? = some z → isHalt z = true

theorem HaltingAt.of_cluster (h : HaltingAt req p)
    (hq : ∀ rk, q.cluster = some rk → p.cluster = some rk)
    (hl : ∀ rk configs, q ≠ .listed rk configs) : HaltingAt req q :=
  ⟨fun rk hrk => h.cluster rk (hq rk hrk), fun rk configs _ hp => absurd hp (hl rk configs)⟩

theorem haltingAt_of_none (h : p.cluster = none) : HaltingAt req p := by
  refine ⟨fun rk hrk => ?_, fun rk configs z hp => ?_⟩
  · rw [h] at hrk; cases hrk
  · rw [hp] at h; cases h

/-- At such a point nothing is created. -/
theorem HaltingAt.forward (h : HaltingAt req p) {c : Call} (hi : Issues req p c) :
    movesForward c = true := by
  have hcr : ∀ cluster configs, p = .listed cluster configs → ¬ Creates cluster configs := by
    rintro cluster configs rfl hc
    rw [Creates, if_pos (h.cluster cluster rfl).2] at hc
    obtain ⟨z, hz, hne⟩ := hc
    exact hne (isHalt_iff.mp (h.listed cluster configs z rfl hz)).1
  cases hi with
  | ensure hp hc =>
    exfalso
    cases p with
    | got cluster => exact hp (h.cluster cluster rfl).2
    | listed cluster configs =>
      obtain hcs | ⟨-, z, hz, -, hne⟩ := hp.2
      · exact hcr cluster configs rfl hcs
      · exact hne (isHalt_iff.mp (h.listed cluster configs z rfl hz)).2
    | _ => exact hp
  | create hc => exact absurd hc (hcr _ _ rfl)
  | @free p c hc =>
    cases c with
    | write a => cases hc
    | _ => rfl
  | _ => rfl

theorem Halting.same (h : Halting req w) (hr : w'.store.redkeys = w.store.redkeys)
    (hc : w'.store.configs = w.store.configs) : Halting req w' where
  keyed := by rw [hr]; exact h.keyed
  redkey := by rw [hr]; exact h.redkey
  names := by rw [hc]; exact h.names
  top := by simp only [ownConfigs, Store.configsOf, hc]; exact h.top

theorem Halting.setRedkey (h : Halting req w) {rk : Redkey}
    (hp : rk.key = req → rk.spec.primaries = 0) :
    Halting req (w.commit (w.store.setRedkey rk) []) where
  keyed key' rk' hrk' := by
    by_cases hkey : key' = rk.key
    · rw [hkey, World.store_commit, redkeys_setRedkey_self] at hrk'
      cases hrk'
      exact hkey.symm
    · rw [World.store_commit, redkeys_setRedkey_of_ne _ hkey] at hrk'
      exact h.keyed key' rk' hrk'
  redkey rk' hrk' := by
    by_cases hkey : req = rk.key
    · rw [hkey, World.store_commit, redkeys_setRedkey_self] at hrk'
      cases hrk'
      exact hp hkey.symm
    · rw [World.store_commit, redkeys_setRedkey_of_ne _ hkey] at hrk'
      exact h.redkey rk' hrk'
  names := h.names
  top := h.top

theorem mem_ownConfigs {st : Store} {c : RedkeyConfig} : c ∈ ownConfigs req st ↔
    c ∈ st.configs ∧ c.key.namespace_ = req.namespace_ ∧
      c.metadata.labels.get clusterLabel = some req.name := by
  simp [ownConfigs, Store.configsOf]

/-- Robin leaves a finished scale-down alone. -/
theorem Halting.robin (h : Halting req w) {key : NamespacedName} {c : RedkeyConfig}
    {s : RedkeyConfigStatus} (hc : w.store.config key = some c)
    (hm : robinMay w.store.configs c s.configPhase = true) :
    Halting req (w.commit (w.store.setConfigStatus key s) (moves c s)) := by
  have haged := aged_setConfigStatus h.names hc (robinMay_finished hm)
  have hback : ∀ d' ∈ ownConfigs req (w.store.setConfigStatus key s),
      ∃ d ∈ ownConfigs req w.store, Ages d d' := by
    intro d' hd'
    obtain ⟨hmem, hown⟩ := mem_ownConfigs.mp hd'
    obtain ⟨d, hd, hdd⟩ := haged.mem_left hmem
    rw [hdd.same] at hown
    exact ⟨d, mem_ownConfigs.mpr ⟨hd, hown⟩, hdd⟩
  refine ⟨h.keyed, h.redkey, by simpa [Store.keys_setConfigStatus] using h.names, ?_⟩
  obtain hnil | htop := h.top
  · refine .inl (List.eq_nil_iff_forall_not_mem.mpr fun d' hd' => ?_)
    obtain ⟨d, hd, -⟩ := hback d' hd'
    rw [hnil] at hd
    cases hd
  · obtain ⟨z, hz, hhalt, hmax⟩ := haltedTop_iff.mp htop
    obtain ⟨hz0, hzp⟩ := isHalt_iff.mp hhalt
    obtain ⟨hmem, hown⟩ := mem_ownConfigs.mp hz
    obtain ⟨z', hz', hzz⟩ := haged.mem_right hmem
    refine .inr (haltedTop_iff.mpr ⟨z', mem_ownConfigs.mpr ⟨hz', ?_⟩, isHalt_iff.mpr ⟨?_, ?_⟩, ?_⟩)
    · rw [hzz.same]; exact hown
    · rw [hzz.spec, hz0]
    · exact hzz.applied hzp
    · intro d' hd'
      obtain ⟨d, hd, hdd⟩ := hback d' hd'
      rw [hdd.key, hdd.sequence, hzz.key, hzz.sequence]
      exact hmax d hd

/-- A current list ends with the finished scale-down. -/
theorem Halting.listed (h : Halting req w) {items : List RedkeyConfig}
    (hp : items.Perm (ownConfigs req w.store)) {z : RedkeyConfig}
    (hz : (sortBySequence items).getLast? = some z) : isHalt z = true := by
  have hmem : ∀ c, c ∈ sortBySequence items ↔ c ∈ ownConfigs req w.store := fun c =>
    mem_sortBySequence.trans hp.mem_iff
  have hzo := (hmem z).mp (List.mem_of_getLast? hz)
  obtain hnil | htop := h.top
  · rw [hnil] at hzo; cases hzo
  · obtain ⟨y, hy, hhalt, hmax⟩ := haltedTop_iff.mp htop
    obtain hk | hlt := hmax z hzo
    · rw [List.inj_on_of_nodup_map h.names (mem_ownConfigs.mp hzo).1 (mem_ownConfigs.mp hy).1 hk]
      exact hhalt
    · -- the list is sorted, so nothing in it is above its last element
      obtain ⟨front, hfront⟩ := List.getLast?_eq_some_iff.mp hz
      have hsorted := sortBySequence_sorted items
      have hyl := (hmem y).mpr hy
      rw [hfront] at hsorted hyl
      rcases List.mem_append.mp hyl with hyf | hyz
      · have := (List.pairwise_append.mp hsorted).2.2 y hyf z List.mem_cons_self
        omega
      · rw [← List.mem_singleton.mp hyz]; exact hhalt

theorem Halting.effect (h : Halting req w) (hp : HaltingAt req p)
    (hT : T.Implies (deletesUpward req)) (he : Effect T req p w w') : Halting req w' := by
  cases he with
  | quiet hq => exact h.same hq.redkeys hq.configs
  | sawRedkey => exact h.same rfl rfl
  | sawConfigs => exact h.same rfl rfl
  | @updated rk cur o hi ok hc hv =>
    refine h.setRedkey fun hk => h.redkey cur ?_
    have hkey : cur.key = req := hk
    rw [← hkey, h.keyed _ _ hc]
    exact hc
  | created hi => exact absurd (hp.forward hi) nofun
  | @deleted key c o hi ok hc =>
    refine ⟨h.keyed, h.redkey, h.names.sublist (List.filter_sublist.map _), ?_⟩
    have hup := hT.call _ _ _ ok
    simp only [deletesUpward, Bool.or_eq_true, List.isEmpty_iff] at hup
    exact hup

theorem HaltingAt.silent (h : HaltingAt req p) (hq : Silent p q) : HaltingAt req q := by
  refine h.of_cluster (fun rk hrk => hq.cluster hrk) fun rk configs he => ?_
  subst he
  cases hq

theorem HaltingAt.next (h : HaltingAt req p) (hw₀ : Halting req w) {c : Call} {o : Outcome}
    {res : Except ApiError (Reply c)} (hq : Next req p c res q)
    (hget : currentGets.call c o w = true) (hlist : currentLists.call c o w = true)
    (hw : answer c o w = some (res, w')) : HaltingAt req q := by
  cases hq with
  | stay => exact h
  | get =>
    obtain ⟨i, st, hv, hrk, -⟩ := answer_getRedkey_ok hw
    obtain ⟨-, rfl⟩ := view_now (fun j order ho => by subst ho; simpa [currentGets] using hget) hv
    refine ⟨fun rk he => ?_, fun _ _ _ he => by cases he⟩
    cases he
    exact ⟨hw₀.keyed _ _ hrk, hw₀.redkey _ hrk⟩
  | @list cluster items =>
    obtain ⟨i, st, hv, hperm, -⟩ := answer_listConfigs_ok hw
    obtain ⟨-, rfl⟩ := view_currentLists hlist hv
    rw [(h.cluster cluster rfl).1] at hperm
    refine ⟨fun rk he => h.cluster rk he, fun rk configs z he hz => ?_⟩
    cases he
    exact hw₀.listed hperm hz
  | failed => exact haltingAt_of_none rfl
  | missing => exact haltingAt_of_none rfl
  | _ => exact h.of_cluster (fun rk hrk => hrk) fun _ _ he => by cases he

theorem Runs.halting (h : Runs ((haltedProtocol req).and (deletesUpward req)) req w₀ p w)
    (h₀ : Halted req w₀) : Halting req w ∧ HaltingAt req p := by
  induction h using Runs.induct with
  | init =>
    obtain ⟨rk₀, hrk₀, hp₀⟩ := h₀.redkey
    refine ⟨⟨h₀.keyed, fun rk hrk => ?_, h₀.names, .inr h₀.top⟩, haltingAt_of_none rfl⟩
    rw [hrk₀] at hrk
    cases hrk
    exact hp₀
  | env p e w w' h ok hw ih =>
    simp only [haltedProtocol, Terms.and, Bool.and_eq_true] at ok
    cases e with
    | update key spec =>
      obtain ⟨rk, hrk, -, rfl⟩ := env_update hw
      refine ⟨ih.1.setRedkey fun hk => ?_, ih.2⟩
      have hkey : rk.key = req := hk
      rw [ih.1.keyed _ _ hrk] at hkey
      exact absurd hkey (by simpa [specUnchanged] using ok.1.2.2)
    | robin key s =>
      obtain ⟨c, hc, rfl⟩ := env_robin hw
      exact ⟨ih.1.robin hc (robinMay_of_protocol ok.1.1 hc), ih.2⟩
    | collect key => simp [specUnchanged] at ok
  | enter p w h ih => exact ⟨ih.1.same rfl rfl, haltingAt_of_none rfl⟩
  | silent p q w h hq ih => exact ⟨ih.1, ih.2.silent hq⟩
  | call p q w w' c o res h hq ok hw ih =>
    have heff := hq.issues.effect ok hw
    simp only [haltedProtocol, protocol, Terms.and, Bool.and_eq_true] at ok
    exact ⟨ih.1.effect ih.2 ((haltedProtocol req).and_right _) heff,
      ih.2.next ih.1 hq ok.1.2.1 ok.1.1.2 hw⟩

/-- From every state in which Robin is done with a scale-down, with any other
configs, list orders, failures and crashes: if no deletion leaves another config
on top, Reconciles only delete and write the status. -/
theorem teardown_moves_forward (h₀ : Halted req w₀)
    (h : Reaches ((haltedProtocol req).and (deletesUpward req)) (reconcile r req) ⟨w₀, none⟩ s)
    {c : Call} (hc : pendingCall s = some c) : movesForward c = true := by
  obtain ⟨p, hr, hi⟩ := reconcile_pending h hc
  exact (hr.halting h₀).2.forward hi

/-- A sample cluster that is to be scaled down: `rk-9` has primaries, `rk-10`
none, and Robin has applied both. -/
def leftoverWorld : World where
  store :=
    { redkeys := fun key => if key = sampleKey then some (sampleRedkey 0) else none
      configs := [{ newConfig (sampleRedkey 3) 9 with status := { configPhase := .applied } },
        { newConfig (sampleRedkey 0) 10 with status := { configPhase := .applied } }]
      robin := fun _ _ => none }

theorem halted_leftoverWorld : Halted sampleKey leftoverWorld := by
  refine ⟨fun key rk h => ?_, ⟨sampleRedkey 0, by simp [leftoverWorld], rfl⟩, by decide +kernel,
    by decide +kernel⟩
  simp only [leftoverWorld] at h
  split at h
  · cases h
    exact Eq.symm (by assumption)
  · cases h

/-- A teardown that lists the configs in the given order and whose second
deletion fails. -/
def interruptedTeardown (order : List Nat) : List (Move server) :=
  [.event .start, .drain .ok 6, .event (.call (.stale 0 order)), .drain .ok 1,
    .event (.call .refused), .event .stop]

set_option maxRecDepth 100000 in
/-- `rk-9` is deleted first, and the next Reconcile goes on deleting. -/
theorem teardown_moves_forward_sample :
    ∃ s c, Reaches ((haltedProtocol sampleKey).and (deletesUpward sampleKey)) sampleReconcile
        ⟨leftoverWorld, none⟩ s ∧
      (ownConfigs sampleKey s.world.store).map RedkeyConfig.sequence = [10] ∧
      pendingCall s = some c ∧ movesForward c = true := by
  obtain ⟨s, hs, ht⟩ : ∃ s, Reaches ((haltedProtocol sampleKey).and (deletesUpward sampleKey))
      sampleReconcile ⟨leftoverWorld, none⟩ s ∧
        ((pendingCall s).isSome &&
          decide ((ownConfigs sampleKey s.world.store).map RedkeyConfig.sequence = [10])) = true :=
    exists_reaches_of_play (interruptedTeardown [0, 1] ++ [.event .start, .drain .ok 3]) _
      (by decide +kernel)
  obtain ⟨hp, hl⟩ := Bool.and_eq_true_iff.mp ht
  obtain ⟨c, hc⟩ := Option.isSome_iff_exists.mp hp
  exact ⟨s, c, hs, of_decide_eq_true hl, hc, teardown_moves_forward halted_leftoverWorld hs hc⟩

set_option maxRecDepth 100000 in
/-- `rk-10` is deleted first, and the next Reconcile begins a scale-down of `rk-9`. -/
theorem teardown_can_move_back :
    ¬ ∀ (r : RedkeyReconciler) (req : NamespacedName) (w₀ : World) (s : State server Result)
      (c : Call), Halted req w₀ →
      Reaches (haltedProtocol req) (reconcile r req) ⟨w₀, none⟩ s →
      ownConfigs req s.world.store ≠ [] → pendingCall s = some c → movesForward c = true := by
  intro hall
  obtain ⟨s, hs, ht⟩ : ∃ s,
      Reaches (haltedProtocol sampleKey) sampleReconcile ⟨leftoverWorld, none⟩ s ∧
        (!(ownConfigs sampleKey s.world.store).isEmpty &&
          (pendingCall s).any fun c => !movesForward c) = true :=
    exists_reaches_of_play (interruptedTeardown [1, 0] ++ [.event .start, .drain .ok 3]) _
      (by decide +kernel)
  obtain ⟨hne, hp⟩ := Bool.and_eq_true_iff.mp ht
  obtain ⟨c, hc, hback⟩ := (Option.any_eq_true _ _).mp hp
  rw [hall _ _ _ s c halted_leftoverWorld hs (by simpa using hne) hc] at hback
  cases hback

end RedkeyOperator.Protocol
