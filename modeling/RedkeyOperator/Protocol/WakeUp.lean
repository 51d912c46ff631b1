import RedkeyOperator.Api.Admission
import RedkeyOperator.Protocol.Topology

/-! # Waking up from zero

Admission judges one update at a time against the recorded topology, while the
operator sees only the spec that is current when it reconciles. When users do
not change the topology again before the operator has created the config of a
scale-up, the first config with primaries after a teardown has the topology of
the last one before it. -/
namespace RedkeyOperator.Protocol
open RedkeyOperator.Api RedkeyOperator.Kube RedkeyOperator.Interleave RedkeyOperator.Controller

variable {T : Terms server} {req : NamespacedName} {w₀ w w' : World} {p q : Point}

/-! ## The journal of a teardown -/

/-- The config created last has no primaries. -/
def haltedLast (journal : List Happening) : Bool :=
  (journal.findSome? fun
    | .created c => some (c.spec.primaries == 0)
    | _ => none) == some true

/-- The journal as it was when the teardown completed that is the last event but
for configs without primaries. -/
def teardown : List Happening → Option (List Happening)
  | [] => none
  | .deleted _ true :: journal => some journal
  | .created c :: journal => if 0 < c.spec.primaries then none else teardown journal
  | _ :: journal => teardown journal

/-- `c` is the first config with primaries after a teardown, and `t` was the
topology applied last before it. -/
def WakesFrom (journal : List Happening) (c : RedkeyConfig) (t : Topology) : Prop :=
  ∃ post before pre, journal = post ++ .created c :: before ∧ 0 < c.spec.primaries ∧
    teardown before = some pre ∧ lastTopology pre = some t

@[simp] theorem haltedLast_created (c : RedkeyConfig) (journal : List Happening) :
    haltedLast (.created c :: journal) = (c.spec.primaries == 0) := by
  simp [haltedLast]

@[simp] theorem haltedLast_deleted (c : RedkeyConfig) (last : Bool) (journal : List Happening) :
    haltedLast (.deleted c last :: journal) = haltedLast journal := by
  simp [haltedLast]

@[simp] theorem haltedLast_moves (c : RedkeyConfig) (s : RedkeyConfigStatus)
    (journal : List Happening) : haltedLast (moves c s ++ journal) = haltedLast journal := by
  unfold moves
  split <;> simp [haltedLast]

@[simp] theorem teardown_moves (c : RedkeyConfig) (s : RedkeyConfigStatus)
    (journal : List Happening) : teardown (moves c s ++ journal) = teardown journal := by
  unfold moves
  split <;> rfl

/-- A wake-up is new or was one before. -/
theorem WakesFrom.of_cons {x : Happening} {journal : List Happening} {c : RedkeyConfig} {t : Topology}
    (h : WakesFrom (x :: journal) c t) : WakesFrom journal c t ∨
      (x = .created c ∧ 0 < c.spec.primaries ∧
        ∃ pre, teardown journal = some pre ∧ lastTopology pre = some t) := by
  obtain ⟨post, before, pre, hj, hpos, hpre, ht⟩ := h
  cases post with
  | nil => cases hj; exact .inr ⟨rfl, hpos, pre, hpre, ht⟩
  | cons y post => cases hj; exact .inl ⟨post, before, pre, rfl, hpos, hpre, ht⟩

theorem lastTopology_pos {journal : List Happening} {t : Topology}
    (h : lastTopology journal = some t) : t.1 ≠ 0 := by
  obtain ⟨x, -, hx⟩ := List.exists_of_findSome?_eq_some h
  cases x with
  | moved c =>
    simp only [Option.ite_none_right_eq_some, Option.some.injEq] at hx
    obtain ⟨hb, rfl⟩ := hx
    simp only [baseline, Bool.and_eq_true, decide_eq_true_eq] at hb
    exact hb.2.ne'
  | _ => cases hx

/-! ## Terms -/

/-- Users make only updates that are admitted. -/
def admittedUpdates : Terms server where
  env e w := match e with
    | .update key spec => (w.store.redkeys key).all fun rk => admitted rk spec
    | _ => true
  call _ _ _ := true

/-- While the config created last has no primaries, a cluster that has been
scaled up keeps its topology. -/
def wakesOnce : Terms server where
  env e w := match e with
    | .update key spec => (w.store.redkeys key).all fun rk =>
      !haltedLast w.journal || rk.spec.primaries == 0 || spec.primaries == 0 ||
        (spec.primaries, spec.replicasPerPrimary) == (rk.spec.primaries, rk.spec.replicasPerPrimary)
    | _ => true
  call _ _ _ := true

/-- The protocol with fresh reads and admitted updates. -/
def admittedProtocol : Terms server := protocol.and (currentGets.and admittedUpdates)

def lockedProtocol : Terms server := admittedProtocol.and (recordedFirst.and wakesOnce)

theorem lockedProtocol_recording : lockedProtocol.Implies recordingProtocol :=
  ⟨fun e w h => by
    simp only [lockedProtocol, admittedProtocol, recordingProtocol, Terms.and, Bool.and_eq_true] at h ⊢
    exact ⟨h.1.1, h.2.1⟩, fun c o w h => by
    simp only [lockedProtocol, admittedProtocol, recordingProtocol, Terms.and, Bool.and_eq_true] at h ⊢
    exact ⟨h.1.1, h.2.1⟩⟩

/-! ## The lock -/

/-- A spec that the recorded topology admits as a scale-up. -/
def LockedTo (spec : RedkeySpec) (status : RedkeyStatus) : Prop :=
  spec.primaries ≠ 0 → status.lastAppliedPrimaries ≠ 0 →
    (spec.primaries, spec.replicasPerPrimary) = status.lastApplied

def Locked (req : NamespacedName) (w : World) : Prop :=
  ∀ rk, w.store.redkeys req = some rk → LockedTo rk.spec rk.status

structure Slumber (req : NamespacedName) (w : World) : Prop where
  persistent : ∀ rk, w.store.redkeys req = some rk → rk.spec.ephemeral = false
  top : ∀ c, w.store.configs.getLast? = some c → c.spec.primaries = 0 → haltedLast w.journal = true
  /-- After a teardown nothing is stored until the cluster wakes up. -/
  empty : ∀ pre, teardown w.journal = some pre → w.store.configs = [] ∧
    haltedLast w.journal = true ∧ lastTopology w.journal = lastTopology pre ∧ Locked req w
  woken : ∀ c t, WakesFrom w.journal c t → c.topology = t

/-- What a Reconcile knows of the lock: it holds while a scale-down is finished,
and of the spec it has read when it wakes the cluster up. -/
def Lulled (req : NamespacedName) : Point → World → Prop
  | .got rk, w | .listed rk _, w =>
    (rk.spec.primaries = 0 → haltedLast w.journal = true → Locked req w) ∧
      ∀ pre, teardown w.journal = some pre → ∀ cur, w.store.redkeys req = some cur →
        LockedTo rk.spec cur.status
  | .deleting _ _, w => (haltedLast w.journal = true → Locked req w) ∧
      (w.store.configs ≠ [] → haltedLast w.journal = true)
  | _, _ => True

theorem Locked.of_redkeys (h : Locked req w) (hr : w'.store.redkeys = w.store.redkeys) :
    Locked req w' := by
  intro rk hrk
  exact h rk (hr ▸ hrk)

theorem Slumber.same (h : Slumber req w) (hr : w'.store.redkeys = w.store.redkeys)
    (hc : w'.store.configs = w.store.configs) (hj : w'.journal = w.journal) : Slumber req w' where
  persistent := by rw [hr]; exact h.persistent
  top := by rw [hc, hj]; exact h.top
  empty pre hpre := by
    obtain ⟨he, hh, hl, hlock⟩ := h.empty pre (hj ▸ hpre)
    rw [hc, hj]
    exact ⟨he, hh, hl, hlock.of_redkeys hr⟩
  woken := by rw [hj]; exact h.woken

/-- Steps that leave the Redkeys and the journal's story alone. -/
theorem Lulled.keep (h : Lulled req p w) (hr : w'.store.redkeys = w.store.redkeys)
    (hc : w'.store.configs ≠ [] → w.store.configs ≠ [])
    (hh : haltedLast w'.journal = haltedLast w.journal)
    (ht : teardown w'.journal = teardown w.journal) : Lulled req p w' := by
  cases p with
  | got rk =>
    exact ⟨fun h0 hl => (h.1 h0 (hh ▸ hl)).of_redkeys hr,
      fun pre hpre cur hcur => h.2 pre (ht ▸ hpre) cur (hr ▸ hcur)⟩
  | listed rk configs =>
    exact ⟨fun h0 hl => (h.1 h0 (hh ▸ hl)).of_redkeys hr,
      fun pre hpre cur hcur => h.2 pre (ht ▸ hpre) cur (hr ▸ hcur)⟩
  | deleting rk items =>
    exact ⟨fun hl => (h.1 (hh ▸ hl)).of_redkeys hr, fun hne => hh ▸ h.2 (hc hne)⟩
  | _ => trivial

/-! ## Users and Robin -/

/-- An admitted update keeps the lock, while a scale-down is the last config. -/
theorem Locked.update (h : Locked req w) (hv : Versions req w) (hs : Slumber req w)
    (hh : haltedLast w.journal = true) {key : NamespacedName} {rk : Redkey} {spec : RedkeySpec}
    (hrk : w.store.redkeys key = some rk) (ha : admitted rk spec = true)
    (hw : wakesOnce.env (.update key spec) w = true) :
    Locked req (w.commit (w.store.setRedkey (rk.withSpec spec)) []) := by
  intro rk' hrk' hpos hrec
  obtain ⟨rfl, hcur⟩ | hrk' := hv.store_update hrk (precedes_withSpec _ _) hrk'
  · have hpos : spec.primaries ≠ 0 := hpos
    have hrec : rk.status.lastAppliedPrimaries ≠ 0 := hrec
    show (spec.primaries, spec.replicasPerPrimary) = rk.status.lastApplied
    by_cases h0 : rk.spec.primaries = 0
    · exact admitted_wakeUp ha (hs.persistent rk hcur) h0 hpos hrec
    · simp only [wakesOnce, hrk, Option.all_some, hh, Bool.not_true, Bool.false_or,
        beq_eq_false_iff_ne.mpr h0, beq_eq_false_iff_ne.mpr hpos, beq_iff_eq] at hw
      exact hw.trans (h rk hcur h0 hrec)
  · exact h rk' hrk' hpos hrec

theorem Slumber.update (h : Slumber req w) (hv : Versions req w) {key : NamespacedName}
    {rk : Redkey} {spec : RedkeySpec} (hrk : w.store.redkeys key = some rk)
    (ha : admitted rk spec = true) (hw : wakesOnce.env (.update key spec) w = true) :
    Slumber req (w.commit (w.store.setRedkey (rk.withSpec spec)) []) where
  persistent rk' hrk' := by
    obtain ⟨rfl, hcur⟩ | hrk' := hv.store_update hrk (precedes_withSpec _ _) hrk'
    · exact (admitted_ephemeral ha).trans (h.persistent rk hcur)
    · exact h.persistent rk' hrk'
  top := h.top
  empty pre hpre := by
    obtain ⟨he, hh, hl, hlock⟩ := h.empty pre hpre
    exact ⟨he, hh, hl, hlock.update hv h hh hrk ha hw⟩
  woken := h.woken

theorem Lulled.update (h : Lulled req p w) (hs : Slumber req w) (hv : Versions req w)
    {key : NamespacedName} {rk : Redkey} {spec : RedkeySpec} (hrk : w.store.redkeys key = some rk)
    (ha : admitted rk spec = true) (hw : wakesOnce.env (.update key spec) w = true) :
    Lulled req p (w.commit (w.store.setRedkey (rk.withSpec spec)) []) := by
  have hread : ∀ (cluster : Redkey) (cur' : Redkey),
      (∀ cur, w.store.redkeys req = some cur → LockedTo cluster.spec cur.status) →
      (w.store.setRedkey (rk.withSpec spec)).redkeys req = some cur' →
      LockedTo cluster.spec cur'.status := by
    intro cluster cur' hl hcur'
    obtain ⟨rfl, hcur⟩ | hcur' := hv.store_update hrk (precedes_withSpec _ _) hcur'
    · exact hl rk hcur
    · exact hl cur' hcur'
  cases p with
  | got cluster =>
    exact ⟨fun h0 hl => (h.1 h0 hl).update hv hs hl hrk ha hw,
      fun pre hpre cur' hcur' => hread cluster cur' (h.2 pre hpre) hcur'⟩
  | listed cluster configs =>
    exact ⟨fun h0 hl => (h.1 h0 hl).update hv hs hl hrk ha hw,
      fun pre hpre cur' hcur' => hread cluster cur' (h.2 pre hpre) hcur'⟩
  | deleting cluster items => exact ⟨fun hl => (h.1 hl).update hv hs hl hrk ha hw, h.2⟩
  | _ => trivial

theorem WakesFrom.of_moves {c d : RedkeyConfig} {s : RedkeyConfigStatus} {journal : List Happening}
    {t : Topology} (h : WakesFrom (moves c s ++ journal) d t) : WakesFrom journal d t := by
  unfold moves at h
  split at h
  · exact h
  · exact h.of_cons.resolve_right nofun

/-- Robin has nothing to move after a teardown. -/
theorem Slumber.robin (h : Slumber req w) {key : NamespacedName} {c : RedkeyConfig}
    {s : RedkeyConfigStatus} (hc : w.store.config key = some c)
    (ha : Aged w.store.configs (w.store.setConfigStatus key s).configs) :
    Slumber req (w.commit (w.store.setConfigStatus key s) (moves c s)) where
  persistent := h.persistent
  top d hd h0 := by
    obtain ⟨b, hb⟩ : ∃ b, w.store.configs.getLast? = some b := by
      cases hl : w.store.configs.getLast? with
      | none =>
        have hmem := (Store.config_mem hc).1
        rw [List.getLast?_eq_none_iff.mp hl] at hmem
        cases hmem
      | some b => exact ⟨b, rfl⟩
    obtain ⟨d', hd', hbd⟩ := ha.getLast_right hb
    rw [World.store_commit, hd', Option.some.injEq] at hd
    subst hd
    rw [World.journal_commit, haltedLast_moves]
    exact h.top b hb (by rw [← hbd.spec, h0])
  empty pre hpre := by
    rw [World.journal_commit, teardown_moves] at hpre
    have hmem := (Store.config_mem hc).1
    rw [(h.empty pre hpre).1] at hmem
    cases hmem
  woken d t hd := h.woken d t hd.of_moves

/-! ## The operator -/

/-- A created config takes the topology the Reconcile has read, which is the
recorded one if it is the first after a teardown. -/
theorem Slumber.create {rk : Redkey} {configs : List RedkeyConfig} (h : Slumber req w)
    (hl : Lulled req (.listed rk configs) w) (hm : Remembers req w) (hv : Versions req w)
    (ht : Aged configs w.store.configs) (hc : Creates rk configs) (seq : Nat) :
    Slumber req (w.commit { w.store with configs := w.store.configs ++ [newConfig rk seq] }
      [.created (newConfig rk seq)]) where
  persistent := h.persistent
  top d hd h0 := by
    rw [World.store_commit, List.getLast?_concat, Option.some.injEq] at hd
    subst hd
    simpa using h0
  empty pre hpre := by
    rw [World.journal_commit, List.singleton_append, teardown] at hpre
    split at hpre
    · cases hpre
    · rename_i h0
      -- a scale-down is begun only for configs that are there
      have h0 : rk.spec.primaries = 0 := Nat.eq_zero_of_not_pos h0
      rw [Creates, if_pos h0] at hc
      obtain ⟨c, hlast, -⟩ := hc
      obtain ⟨b, hb, -⟩ := ht.mem_right (List.mem_of_getLast? hlast)
      rw [(h.empty pre hpre).1] at hb
      cases hb
  woken d t hd := by
    obtain hd | ⟨hnew, hpos, pre, hpre, hlast⟩ := hd.of_cons
    · exact h.woken d t hd
    · cases hnew
      obtain ⟨hempty, -, hsame, -⟩ := h.empty pre hpre
      obtain ⟨cur, hcur, -⟩ := hv.current
      have hrec : cur.status.lastApplied = t :=
        (hm cur hcur).gone (by simp [hempty]) t (hsame.trans hlast)
      have hne : cur.status.lastAppliedPrimaries ≠ 0 := by
        have := lastTopology_pos hlast
        rwa [← hrec] at this
      exact (hl.2 pre hpre cur hcur (Nat.pos_iff_ne_zero.mp hpos) hne).trans hrec

theorem Slumber.prune {x : RedkeyConfig} {st : Store} (h : Slumber req w)
    (hr : st.redkeys = w.store.redkeys) (hx : w.store.configs = x :: st.configs)
    (hne : st.configs ≠ []) : Slumber req (w.commit st [.deleted x false]) where
  persistent := by rw [World.store_commit, hr]; exact h.persistent
  top d hd h0 := by
    rw [World.journal_commit, List.singleton_append, haltedLast_deleted]
    refine h.top d ?_ h0
    rw [hx]
    obtain ⟨y, ys, hys⟩ := List.exists_cons_of_ne_nil hne
    rw [World.store_commit, hys] at hd
    rw [hys, List.getLast?_cons_cons]
    exact hd
  empty pre hpre := by
    have := (h.empty pre hpre).1
    rw [hx] at this
    cases this
  woken d t hd := h.woken d t (hd.of_cons.resolve_right nofun)

theorem Slumber.dismantle {x : RedkeyConfig} {st : Store} {last : Bool} {rk : Redkey}
    {items : List RedkeyConfig} (h : Slumber req w) (hl : Lulled req (.deleting rk items) w)
    (hr : st.redkeys = w.store.redkeys) (hx : x ∈ w.store.configs)
    (hlast : last = true → st.configs = []) : Slumber req (w.commit st [.deleted x last]) := by
  have hne : w.store.configs ≠ [] := List.ne_nil_of_mem hx
  have hhalt : haltedLast (.deleted x last :: w.journal) = true := by
    rw [haltedLast_deleted]
    exact hl.2 hne
  refine ⟨by rw [World.store_commit, hr]; exact h.persistent, fun _ _ _ => hhalt, fun pre hpre => ?_,
    fun d t hd => h.woken d t (hd.of_cons.resolve_right nofun)⟩
  cases last with
  | false => exact absurd (h.empty pre hpre).1 hne
  | true =>
    cases hpre
    exact ⟨hlast rfl, hhalt, rfl, (hl.1 (hl.2 hne)).of_redkeys hr⟩

/-- A status update after a teardown has nothing new to record. -/
theorem Slumber.record (h : Slumber req w) (hv : Versions req w) (hs : Sourced req p w)
    (ht : Tracks p w) {rk cur : Redkey} (hi : Issues req p (.write (.updateStatus rk)))
    (hc : w.store.redkeys rk.key = some cur) (hver : rk.resourceVersion = cur.resourceVersion) :
    Slumber req (w.commit (w.store.setRedkey (cur.withStatus rk.status)) []) where
  persistent rk' hrk' := by
    obtain ⟨rfl, hcur⟩ | hrk' := hv.store_update hc (precedes_withStatus _ _) hrk'
    · exact h.persistent cur hcur
    · exact h.persistent rk' hrk'
  top := h.top
  empty pre hpre := by
    obtain ⟨he, hh, hl, hlock⟩ := h.empty pre hpre
    refine ⟨he, hh, hl, fun rk' hrk' => ?_⟩
    obtain ⟨rfl, hcur⟩ | hrk' := hv.store_update hc (precedes_withStatus _ _) hrk'
    · obtain hsame | ⟨a, ha, -⟩ := recorded_update hv hs ht hi hc hver
      · have hpri : rk.status.lastAppliedPrimaries = cur.status.lastAppliedPrimaries :=
          congrArg Prod.fst hsame
        intro hpos hrec
        exact (hlock cur hcur hpos (hpri ▸ hrec)).trans hsame.symm
      · rw [he] at ha; cases ha
    · exact hlock rk' hrk'
  woken := h.woken

theorem Slumber.effect (h : Slumber req w) (hl : Lulled req p w) (hm : Remembers req w)
    (hkn : Knows req p w) (ht : Tracks p w) (hv : Versions req w) (hs : Sourced req p w)
    (hp : Provenance req w) (he : Effect T req p w w') : Slumber req w' := by
  have hk := hp.keys _ w.store_mem_history
  cases he with
  | quiet hq => exact h.same hq.redkeys hq.configs hq.journal
  | sawRedkey => exact h.same rfl rfl rfl
  | sawConfigs => exact h.same rfl rfl rfl
  | updated hi ok hc hver => exact h.record hv hs ht hi hc hver
  | created hi ok hn =>
    obtain ⟨cluster, configs, rfl, hc, rfl⟩ := hi.of_createConfig
    exact h.create hl hm hv ht.2 hc _
  | @deleted key x o hi ok hc =>
    obtain ⟨hx, hxk⟩ := Store.config_mem hc
    obtain ⟨cluster, c, older, kept, rfl, rfl⟩ | ⟨cluster, c, items, rfl, rfl⟩ := hi.of_deleteConfig
    · obtain ⟨d, hd, -, hrest, hcons⟩ := Aged.removeConfig ht.2 hk
      rw [hc, Option.some.injEq] at hd
      subst hd
      obtain ⟨a, ha, -⟩ := hkn.resolve_left (List.cons_ne_nil _ _)
      obtain ⟨b, hb, -⟩ := hrest.mem_right (List.mem_append_right _ ha)
      have hany : (w.store.removeConfig c.key).configs.any (sameCluster x) = true :=
        List.any_eq_true.mpr ⟨b, hb, hp.sameCluster hv hx (Store.mem_removeConfig.mp hb).1⟩
      rw [hany]
      exact h.prune rfl hcons (List.ne_nil_of_mem hb)
    · refine h.dismantle hl rfl hx fun hlast => List.eq_nil_iff_forall_not_mem.mpr fun b hb => ?_
      simp only [Bool.not_eq_true', List.any_eq_false] at hlast
      exact hlast b hb (hp.sameCluster hv hx (Store.mem_removeConfig.mp hb).1)

theorem Lulled.silent (h : Lulled req p w) (ht : Tracks p w) (hq : Silent p q) : Lulled req q w := by
  cases hq with
  | steady h0 =>
    refine ⟨h.1 h0, fun hne => ?_⟩
    obtain ⟨c, hc⟩ := List.exists_mem_of_ne_nil _ hne
    obtain ⟨d, hd, -⟩ := ht.2.mem_left hc
    cases hd
  | _ => trivial

theorem Lulled.next (h : Lulled req p w) (hs : Slumber req w) (ht : Tracks p w) {c : Call}
    {o : Outcome} {res : Except ApiError (Reply c)} (hq : Next req p c res q)
    (ok : currentGets.call c o w = true) (hw : answer c o w = some (res, w')) : Lulled req q w' := by
  cases hq with
  | stay hi hc =>
    have hquiet := quiet_answer hc hw
    exact h.keep hquiet.redkeys (by rw [hquiet.configs]; exact id) (by rw [hquiet.journal])
      (by rw [hquiet.journal])
  | @get cluster =>
    obtain ⟨i, st, hv, hrk, rfl⟩ := answer_getRedkey_ok hw
    obtain ⟨-, rfl⟩ := view_now (fun j order ho => by subst ho; simpa [currentGets] using ok) hv
    have hcur : ∀ cur, w.store.redkeys req = some cur → cur = cluster := fun cur hc => by
      rw [hrk] at hc; exact (Option.some.inj hc).symm
    refine ⟨fun h0 _ cur hc hpos => ?_, fun pre hpre cur hc => ?_⟩
    · rw [hcur cur hc] at hpos
      exact absurd h0 hpos
    · have := (hs.empty pre hpre).2.2.2 cur hc
      rw [hcur cur hc] at this ⊢
      exact this
  | list =>
    obtain ⟨i, st, -, -, rfl⟩ := answer_listConfigs_ok hw
    exact Lulled.keep (p := .listed _ _) h rfl id rfl rfl
  | relistAll hd =>
    obtain ⟨i, st, -, -, rfl⟩ := answer_listConfigs_ok hw
    obtain ⟨h0, z, hlast, hz, -⟩ := hd
    refine ⟨(h.1 h0 ·), fun _ => ?_⟩
    obtain ⟨z', hz', hzz⟩ := ht.2.getLast_right hlast
    exact hs.top z' hz' (by rw [hzz.spec, hz])
  | @delete cluster c items r hr =>
    obtain rfl | rfl := hr
    · obtain ⟨st, hst, rfl⟩ := answer_write_ok hw
      obtain ⟨x, hx, rfl⟩ := apply_deleteConfig hst
      refine ⟨fun hl => ?_, fun _ => ?_⟩
      · simp only [World.journal_commit, happenings, hx, List.singleton_append,
          haltedLast_deleted] at hl
        exact h.1 hl
      · simp only [World.journal_commit, happenings, hx, List.singleton_append, haltedLast_deleted]
        exact h.2 (List.ne_nil_of_mem (Store.config_mem hx).1)
    · obtain ⟨rfl, -⟩ := answer_write_rejected hw (by simp)
      exact h
  | _ => trivial

theorem Runs.slumber (h : Runs lockedProtocol req w₀ p w) (hf : Fresh req w₀)
    (hp : ∀ rk, w₀.store.redkeys req = some rk → rk.spec.ephemeral = false) :
    Slumber req w ∧ Lulled req p w := by
  induction h using Runs.induct with
  | init =>
    refine ⟨⟨hp, by simp [hf.configs], by simp [hf.journal, teardown], ?_⟩, trivial⟩
    rintro c t ⟨post, before, pre, hj, -⟩
    simp [hf.journal] at hj
  | env p e w w' h ok hw ih =>
    have hv := h.versions hf.versions
    have hprov := h.provenance hf
    simp only [lockedProtocol, admittedProtocol, Terms.and, Bool.and_eq_true] at ok
    cases e with
    | update key spec =>
      obtain ⟨rk, hrk, -, rfl⟩ := env_update hw
      have ha : admitted rk spec = true := by simpa [admittedUpdates, hrk] using ok.1.2.2
      exact ⟨ih.1.update hv hrk ha ok.2.2, ih.2.update ih.1 hv hrk ha ok.2.2⟩
    | robin key s =>
      obtain ⟨c, hc, rfl⟩ := env_robin hw
      have hm := robinMay_of_protocol ok.1.1 hc
      have haged := aged_setConfigStatus (hprov.keys _ w.store_mem_history) hc (robinMay_finished hm)
      refine ⟨ih.1.robin hc haged, ih.2.keep rfl (fun _ => ?_) (by simp) (by simp)⟩
      exact List.ne_nil_of_mem (Store.config_mem hc).1
    | collect key => exact absurd hw (hprov.not_collected hv)
  | enter p w h ih => exact ⟨ih.1.same rfl rfl rfl, trivial⟩
  | silent p q w h hq ih =>
    have hprot := (h.weaken lockedProtocol_recording).weaken (protocol.and_left _)
    exact ⟨ih.1, ih.2.silent (hprot.orderly hf).2 hq⟩
  | call p q w w' c o res h hq ok hw ih =>
    have hrec := h.weaken lockedProtocol_recording
    obtain ⟨hm, hkn⟩ := hrec.remembers hf
    have ht := ((hrec.weaken (protocol.and_left _)).orderly hf).2
    have hget : currentGets.call c o w = true := by
      simp only [lockedProtocol, admittedProtocol, Terms.and, Bool.and_eq_true] at ok
      exact ok.1.2.1
    exact ⟨ih.1.effect ih.2 hm hkn ht (h.versions hf.versions) (h.sourced hf.cursors)
      (h.provenance hf) (hq.issues.effect ok hw), ih.2.next ih.1 ht hq hget hw⟩

/-! ## The first config after a teardown -/

/-- In every run of a storage cluster in which topologies are recorded before
scale-downs and no scale-up is changed before its config is created, waking up
restores the topology applied last. -/
theorem wakeup_restores_topology {r : RedkeyReconciler} {s : State server Result} {c : RedkeyConfig}
    {t : Topology} (hf : Fresh req w₀)
    (hp : ∀ rk, w₀.store.redkeys req = some rk → rk.spec.ephemeral = false)
    (h : Reaches lockedProtocol (reconcile r req) ⟨w₀, none⟩ s)
    (hw : WakesFrom s.world.journal c t) : c.topology = t := by
  obtain ⟨p, hr⟩ := reconcile_runs h
  exact (hr.slumber hf hp).1.woken c t hw

/-- A wake-up at the end of the journal: its topology and the one before it. -/
def wakeUp : List Happening → Option (Topology × Topology)
  | .created c :: before => if 0 < c.spec.primaries then
      (teardown before).bind fun pre => (lastTopology pre).map fun t => (c.topology, t)
    else none
  | _ => none

theorem of_wakeUp {journal : List Happening} {u t : Topology} (h : wakeUp journal = some (u, t)) :
    ∃ c, WakesFrom journal c t ∧ c.topology = u := by
  unfold wakeUp at h
  split at h
  · rename_i c before
    split at h
    · rename_i hpos
      obtain ⟨pre, hpre, h⟩ := Option.bind_eq_some_iff.mp h
      obtain ⟨t', ht, h⟩ := Option.map_eq_some_iff.mp h
      cases h
      exact ⟨c, ⟨[], before, pre, rfl, hpos, hpre, ht⟩, rfl⟩
    · cases h
  · cases h

set_option maxRecDepth 100000 in
/-- The sample cluster is torn down and comes back as it was. -/
theorem wakeup_restores_topology_sample :
    ∃ s c, Reaches lockedProtocol sampleReconcile ⟨sampleWorld 3, none⟩ s ∧
      WakesFrom s.world.journal c (3, 0) ∧ c.topology = (3, 0) := by
  obtain ⟨s, hs, ht⟩ : ∃ s, Reaches lockedProtocol sampleReconcile ⟨sampleWorld 3, none⟩ s ∧
      decide (wakeUp s.world.journal = some ((3, 0), (3, 0))) = true :=
    exists_reaches_of_play (recordThenHalt ++ [scaleTo 3] ++ undisturbed) _ (by decide +kernel)
  obtain ⟨c, hw, -⟩ := of_wakeUp (of_decide_eq_true ht)
  exact ⟨s, c, hs, hw,
    wakeup_restores_topology (fresh_sampleWorld 3) (persistent_sampleWorld 3) hs hw⟩

set_option maxRecDepth 100000 in
/-- After the teardown the user restores three primaries and then asks for five,
both admitted, before the operator reconciles. -/
theorem wakeup_can_change_topology :
    ¬ ∀ (r : RedkeyReconciler) (req : NamespacedName) (w₀ : World) (s : State server Result)
      (c : RedkeyConfig) (t : Topology), Fresh req w₀ →
      (∀ rk, w₀.store.redkeys req = some rk → rk.spec.ephemeral = false) →
      Reaches admittedProtocol (reconcile r req) ⟨w₀, none⟩ s →
      WakesFrom s.world.journal c t → c.topology = t := by
  intro hall
  obtain ⟨s, hs, ht⟩ : ∃ s, Reaches admittedProtocol sampleReconcile ⟨sampleWorld 3, none⟩ s ∧
      decide (wakeUp s.world.journal = some ((5, 0), (3, 0))) = true :=
    exists_reaches_of_play (recordThenHalt ++ [scaleTo 3, scaleTo 5] ++ undisturbed) _
      (by decide +kernel)
  obtain ⟨c, hw, hc⟩ := of_wakeUp (of_decide_eq_true ht)
  have := hall _ _ _ s c _ (fresh_sampleWorld 3) (persistent_sampleWorld 3) hs hw
  rw [hc] at this
  cases this

end RedkeyOperator.Protocol
