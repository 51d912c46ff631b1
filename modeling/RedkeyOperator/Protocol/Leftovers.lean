import RedkeyOperator.Protocol.Orphans
import RedkeyOperator.Protocol.Topology

/-! # What a cluster scaled to zero leaves behind

A Reconcile that finds no configs takes the cluster for one that never had any
and looks no further. Robin's objects are created before the first config, so
this holds only if the cluster is not scaled to zero in between. -/
namespace RedkeyOperator.Protocol
open RedkeyOperator.Api RedkeyOperator.Kube RedkeyOperator.Interleave RedkeyOperator.Controller

variable {T : Terms server} {req : NamespacedName} {w₀ w w' : World} {p q : Point} {u v : Upkeep}
variable {r : RedkeyReconciler} {s : State server Result}

/-- None of Robin's objects is stored. -/
def Bare (req : NamespacedName) (st : Store) : Prop := ∀ k, st.robin k (robinKeyOf req) = none

def isBare (req : NamespacedName) (st : Store) : Bool :=
  [Kind.serviceAccount, .role, .roleBinding, .deployment].all fun k =>
    (st.robin k (robinKeyOf req)).isNone

theorem isBare_iff {st : Store} : isBare req st = true ↔ Bare req st := by
  refine ⟨fun h k => ?_, fun h => ?_⟩
  · have hk := List.all_eq_true.mp h k (by cases k <;> simp)
    exact Option.isNone_iff_eq_none.mp hk
  · exact List.all_eq_true.mpr fun k _ => by rw [h k]; rfl

/-- The user scales the cluster to zero while it has a config, or while nothing
of Robin's is stored and the last Reconcile has not read a Redkey with primaries. -/
def haltsWithConfig (req : NamespacedName) : Terms server where
  env e w := match e with
    | .update key spec => key != req || spec.primaries != 0 || !w.store.configs.isEmpty ||
      (isBare req w.store && !w.snapshot.any fun rk => rk.spec.primaries != 0)
    | _ => true
  call _ _ _ := true

def tidyProtocol (req : NamespacedName) : Terms server :=
  protocol.and (currentGets.and (haltsWithConfig req))

structure Clean (req : NamespacedName) (u : Upkeep) (w : World) : Prop where
  zero : ∀ rk, w.store.redkeys req = some rk → rk.spec.primaries = 0 → w.store.configs = [] →
    Bare req w.store
  running : ∀ rk, u = .read rk → rk.spec.primaries ≠ 0 → ∀ cur, w.store.redkeys req = some cur →
    cur.spec.primaries = 0 → w.store.configs ≠ []
  halted : ∀ rk, u = .read rk → rk.spec.primaries = 0 → w.store.configs = [] → Bare req w.store
  gone : ∀ rk gone, u = .finishing rk gone → ∀ k ∈ gone, w.store.robin k (robinKeyOf req) = none
  finished : ∀ rk, u = .finished rk → Bare req w.store
  found : ∀ rk, w.snapshot = some rk → rk.spec.primaries = 0 → w.consulted = some [] →
    Bare req w.store

/-! ## The environment -/

theorem Clean.update (h : Clean req u w) (ht : Tending req p u w) (hv : Versions req w)
    {key : NamespacedName} {spec : RedkeySpec}
    (ok : (haltsWithConfig req).env (.update key spec) w = true)
    (he : env (.update key spec) w = some w') : Clean req u w' := by
  obtain ⟨cur, hcur, -, rfl⟩ := env_update he
  -- the Redkey of the request is as before, or the condition on the update applies
  have guard : ∀ rk, (w.store.setRedkey (cur.withSpec spec)).redkeys req = some rk →
      rk.spec.primaries = 0 → w.store.redkeys req = some rk ∨ w.store.configs ≠ [] ∨
        (Bare req w.store ∧ ∀ rk, w.snapshot = some rk → rk.spec.primaries = 0) := by
    intro rk hrk h0
    obtain ⟨rfl, hreq⟩ | hrk := hv.store_update hcur (precedes_withSpec cur spec) hrk
    · have hkey : key = req := (hv.keyed _ _ hcur).symm.trans (hv.keyed _ _ hreq)
      simp only [haltsWithConfig, hkey, bne_self_eq_false, Bool.false_or, Bool.or_eq_true,
        Bool.and_eq_true, Bool.not_eq_true', bne_iff_ne, List.isEmpty_eq_false_iff, isBare_iff] at ok
      obtain (ok | ok) | ⟨hb, hs⟩ := ok
      · exact absurd h0 ok
      · exact .inr (.inl ok)
      · refine .inr (.inr ⟨hb, fun rk' hrk' => ?_⟩)
        simpa [hrk'] using hs
    · exact .inl hrk
  refine ⟨fun rk hrk h0 hnil => ?_, fun rk hu hne rk' hrk' h0 => ?_, h.halted, h.gone, h.finished,
    h.found⟩
  · obtain hrk | hne | ⟨hb, -⟩ := guard rk hrk h0
    · exact h.zero rk hrk h0 hnil
    · exact absurd hnil hne
    · exact hb
  · obtain hrk' | hne' | ⟨-, hs⟩ := guard rk' hrk' h0
    · exact h.running rk hu hne rk' hrk' h0
    · exact hne'
    · subst hu
      exact absurd (hs rk (ht.cluster rk rfl).1) hne

theorem Clean.robin (h : Clean req u w) (key : NamespacedName) (st : RedkeyConfigStatus)
    (hs : List Happening) : Clean req u (w.commit (w.store.setConfigStatus key st) hs) := by
  have hnil : (w.store.setConfigStatus key st).configs = [] ↔ w.store.configs = [] := by
    simp [Store.setConfigStatus]
  exact ⟨fun rk hrk h0 hc => h.zero rk hrk h0 (hnil.mp hc),
    fun rk hu hne cur hcur h0 hc => h.running rk hu hne cur hcur h0 (hnil.mp hc),
    fun rk hu h0 hc => h.halted rk hu h0 (hnil.mp hc), h.gone, h.finished, h.found⟩

/-! ## The operator -/

theorem UpkeepNext.to_read {c : Call} {res : Except ApiError (Reply c)} {rk : Redkey}
    (h : UpkeepNext req u c res (.read rk)) : u = .read rk ∨ u = .mismatched rk ∨
      (u = .off ∧ (⟨c, res⟩ : Σ c, Except ApiError (Reply c)) = ⟨.getRedkey req, .ok rk⟩) := by
  cases h with
  | get => exact .inr (.inr ⟨rfl, rfl⟩)
  | replace => exact .inr (.inl rfl)
  | _ => exact .inl rfl

/-- No call of the operator changes the spec. -/
theorem Effect.spec {rk' : Redkey} (hv : Versions req w) (he : Effect T req p w w')
    (hrk' : w'.store.redkeys req = some rk') :
    ∃ rk, w.store.redkeys req = some rk ∧ rk'.spec = rk.spec := by
  cases he with
  | quiet hq => exact ⟨rk', hq.redkeys ▸ hrk', rfl⟩
  | updated hi ok hc hver =>
    obtain ⟨rfl, hcur⟩ | hrk := hv.store_update hc (precedes_withStatus _ _) hrk'
    · exact ⟨_, hcur, rfl⟩
    · exact ⟨rk', hrk, rfl⟩
  | _ => exact ⟨rk', hrk', rfl⟩

theorem Issues.of_put {k : Kind} {c : Call} (h : Issues req p c)
    (hc : (∃ o, c = .write (.create k o)) ∨ ∃ o, c = .write (.patch k o)) : Ensures p := by
  obtain ⟨o, rfl⟩ | ⟨o, rfl⟩ := hc
  · cases h with
    | free hc => cases hc
    | ensure hp _ => exact hp
  · cases h with
    | free hc => cases hc
    | ensure hp _ => exact hp

theorem ne_nil_of_ensures {cluster : Redkey} {configs : List RedkeyConfig}
    (h : Ensures (.listed cluster configs)) : configs ≠ [] := by
  rintro rfl
  obtain ⟨h0, hc | ⟨-, c, hc, -⟩⟩ := h
  · rw [Creates, if_pos h0] at hc
    obtain ⟨c, hc, -⟩ := hc
    cases hc
  · cases hc

/-- An object is stored on the running path, or with a config that is to be realised. -/
theorem Tending.ensures (h : Tending req p u w) (hs : Sourced req p w) (ht : Tracks p w)
    (hc : Consults p w) {rk : Redkey} (hu : u = .read rk) (hp : Ensures p) :
    (rk.spec.primaries ≠ 0) ∨ (w.store.configs ≠ [] ∧ w.consulted ≠ some []) := by
  subst hu
  have hsnap := (h.cluster rk rfl).1
  cases p with
  | got cluster =>
    obtain rfl : cluster = rk := Option.some.inj ((ReadRedkey.snapshot hs).symm.trans hsnap)
    exact .inl hp
  | listed cluster configs =>
    have hne := ne_nil_of_ensures hp
    refine .inr ⟨fun hnil => ?_, fun hcon => ?_⟩
    · obtain ⟨-, ha⟩ := ht
      rw [hnil] at ha
      cases ha
      exact hne rfl
    · obtain ⟨items, hi, rfl⟩ := hc
      rw [hcon] at hi
      cases hi
      exact hne rfl
  | _ => exact hp.elim

/-- `w'` is `w` with other objects of Robin, and with other statuses of Redkeys. -/
structure Restyled (req : NamespacedName) (w w' : World) : Prop where
  spec : ∀ rk', w'.store.redkeys req = some rk' →
    ∃ rk, w.store.redkeys req = some rk ∧ rk'.spec = rk.spec
  configs : w'.store.configs = w.store.configs
  snapshot : w'.snapshot = w.snapshot
  consulted : w'.consulted = w.consulted

theorem Clean.put {rk : Redkey} (h : Clean req (.read rk) w) (ht : Tending req p (.read rk) w)
    (hs : Sourced req p w) (htr : Tracks p w) (hcon : Consults p w) (hp : Ensures p)
    (hr : Restyled req w w') : Clean req (.read rk) w' := by
  have hcase := ht.ensures hs htr hcon rfl hp
  refine ⟨fun cur hcur h0 hnil => ?_, fun rk' hrk' hne cur hcur h0 => ?_, fun rk' hrk' h0 hnil => ?_,
    fun _ _ hu => (by cases hu), fun _ hu => (by cases hu), fun rk' hrk' h0 hnil => ?_⟩
  · obtain ⟨cur', hcur', he⟩ := hr.spec cur hcur
    rw [hr.configs] at hnil
    obtain hne | ⟨hne, -⟩ := hcase
    · exact absurd hnil (h.running rk rfl hne cur' hcur' (he ▸ h0))
    · exact absurd hnil hne
  · obtain ⟨cur', hcur', he⟩ := hr.spec cur hcur
    rw [hr.configs]
    exact h.running rk' hrk' hne cur' hcur' (he ▸ h0)
  · cases hrk'
    rw [hr.configs] at hnil
    obtain hne | ⟨hne, -⟩ := hcase
    · exact absurd h0 hne
    · exact absurd hnil hne
  · rw [hr.snapshot, (ht.cluster rk rfl).1] at hrk'
    cases hrk'
    rw [hr.consulted] at hnil
    obtain hne | ⟨-, hne⟩ := hcase
    · exact absurd h0 hne
    · exact absurd hnil hne

theorem tidyProtocol_protocol (req : NamespacedName) : (tidyProtocol req).Implies protocol :=
  Terms.and_left _ _

theorem tidyProtocol_current (req : NamespacedName) : (tidyProtocol req).Implies currentGets :=
  (Terms.and_right _ _).trans (Terms.and_left _ _)

/-- The first list of a scaled-down cluster is empty only if nothing is stored. -/
theorem Clean.found_effect (h : Clean req u w) (ht : Tending req p u w)
    (hr : Runs (tidyProtocol req) req w₀ p w) (hf : Fresh req w₀)
    (he : Effect (tidyProtocol req) req p w w') {rk : Redkey} (hs' : w'.snapshot = some rk)
    (h0 : rk.spec.primaries = 0) (hn : w'.consulted = some []) : Bare req w.store := by
  have hs := hr.sourced hf.cursors
  have hcon := hr.consults
  cases he with
  | quiet hq => exact h.found rk (hq.snapshot ▸ hs') h0 (hq.consulted ▸ hn)
  | sawRedkey hi =>
    cases hi with
    | free hc => cases hc
    | ensure _ hc => cases hc
    | get =>
      have hnone : w.consulted = none := hcon
      exact absurd (hnone.symm.trans hn) nofun
    | refetch =>
      refine h.found rk ?_ h0 hn
      rw [← hs']
      simp [World.sawRedkey, hs.1.snapshot]
  | @sawConfigs _ _ _ _ _ items hi ok hv hp =>
    cases hi with
    | free hc => cases hc
    | ensure _ hc => cases hc
    | @list cluster =>
      have hsnap : w.snapshot = some cluster := ReadRedkey.snapshot hs
      obtain rfl : cluster = rk := Option.some.inj (hsnap.symm.trans hs')
      obtain ⟨-, rfl⟩ := view_currentLists ((robinProtocol.and_right _).call _ _ _
        ((tidyProtocol_protocol req).call _ _ _ ok)) hv
      have hvs := hr.versions hf.versions
      obtain ⟨st, hst, hrk⟩ := ReadRedkey.mem hs
      rw [(hvs.of_mem hst hrk).1, (hr.provenance hf).configsOf hvs w.store_mem_history] at hp
      have hnil : items = [] := by
        simpa [World.sawConfigs, show w.consulted = none from hcon] using hn
      rw [hnil] at hp
      exact h.halted cluster (ht.got cluster rfl) h0 hp.nil_eq.symm
    | relist hne =>
      have hsnap : w.snapshot = some _ := ReadRedkey.snapshot hs
      rw [show w.snapshot = some rk from hs'] at hsnap
      cases hsnap
      exact absurd h0 hne
    | relistAll =>
      obtain ⟨items, hi, -⟩ := hcon
      refine h.found rk hs' h0 ?_
      rw [← hn]
      simp [World.sawConfigs, hi]
  | updated => exact h.found rk hs' h0 hn
  | created => exact h.found rk hs' h0 hn
  | deleted => exact h.found rk hs' h0 hn

theorem Clean.shrink (h : Clean req u w) (ht : Tending req p u w)
    (hr : Runs (tidyProtocol req) req w₀ p w) (hf : Fresh req w₀) {c : Call} {o : Outcome}
    {res : Except ApiError (Reply c)} (hq : Next req p c res q) (hv : UpkeepNext req u c res v)
    (ok : (tidyProtocol req).call c o w = true) (hw : answer c o w = some (res, w'))
    (hsh : ∀ k key, w'.store.robin k key = w.store.robin k key ∨ w'.store.robin k key = none) :
    Clean req v w' := by
  have hvs := hr.versions hf.versions
  have he := hq.issues.effect ok hw
  have none_of_none : ∀ k, w.store.robin k (robinKeyOf req) = none →
      w'.store.robin k (robinKeyOf req) = none := by
    intro k hk
    obtain hk' | hk' := hsh k (robinKeyOf req)
    · rw [hk', hk]
    · exact hk'
  have bare : Bare req w.store → Bare req w'.store := fun hb k => none_of_none k (hb k)
  -- the last config is deleted by a teardown only
  have last : w'.store.configs = [] → w.store.configs = [] ∨ ∃ rk, u = .finished rk := by
    intro hnil
    obtain ⟨hcs, -⟩ | ⟨d, rfl, -, rfl⟩ | ⟨key, d, rfl, -, rfl⟩ := answer_configs hw
    · exact .inl (hcs ▸ hnil)
    · simp at hnil
    · have hr₀ := hr.weaken (tidyProtocol_protocol req)
      obtain ⟨-, rk, hu, -⟩ | ⟨cluster, x, older, kept, rfl, rfl, -⟩ :=
        ht.deleteConfig (hr.sourced hf.cursors) hq.issues hv
      · exact .inr ⟨rk, hu⟩
      · obtain ⟨e, rest, -, hrm, hne⟩ := Tracks.prune_leaves (hr.sourced hf.cursors)
          (hr₀.orderly hf).2 ((hr.provenance hf).keys _ w.store_mem_history)
        exact absurd (hrm.symm.trans hnil) hne
  have start : ∀ rk, v = .read rk → u = .read rk ∨
      (w.store.redkeys req = some rk ∧ w'.store.redkeys req = some rk ∧
        w'.store.configs = w.store.configs) := by
    rintro rk rfl
    obtain hu | hu | ⟨-, hc⟩ := hv.to_read
    · exact .inl hu
    · exact absurd hu (ht.matched rk)
    · cases hc
      obtain ⟨i, st, hview, hrk, rfl⟩ := answer_getRedkey_ok hw
      obtain ⟨-, rfl⟩ := view_now (fun j order ho => by
        subst ho; simpa [currentGets] using (tidyProtocol_current req).call _ _ _ ok) hview
      exact .inr ⟨hrk, hrk, rfl⟩
  refine ⟨fun rk hrk h0 hnil => bare ?_, fun rk hrk hne cur hcur h0 hnil => ?_,
    fun rk hrk h0 hnil => bare ?_, ?_, ?_, fun rk hs' h0 hn => ?_⟩
  · obtain ⟨rk', hrk', hspec⟩ := he.spec hvs hrk
    obtain hnil | ⟨_, hu⟩ := last hnil
    · exact h.zero rk' hrk' (hspec ▸ h0) hnil
    · exact h.finished _ hu
  · obtain ⟨cur', hcur', hspec⟩ := he.spec hvs hcur
    obtain hu | ⟨hrk', hrk'', -⟩ := start rk hrk
    · obtain hnil | ⟨_, hu'⟩ := last hnil
      · exact h.running rk hu hne cur' hcur' (hspec ▸ h0) hnil
      · cases hu.symm.trans hu'
    · rw [hrk''] at hcur
      cases hcur
      exact hne h0
  · obtain hu | ⟨hrk', -, hcs⟩ := start rk hrk
    · obtain hnil | ⟨_, hu'⟩ := last hnil
      · exact h.halted rk hu h0 hnil
      · exact h.finished _ hu'
    · exact h.zero rk hrk' h0 (hcs ▸ hnil)
  · rintro rk gone rfl k hk
    cases hv with
    | pass => exact none_of_none k (h.gone rk gone rfl k hk)
    | list => cases hk
    | delete hres =>
      rcases List.mem_cons.mp hk with rfl | hk
      · rw [← robinKey_eq (ht.cluster rk rfl).2]
        obtain rfl | rfl := hres
        · obtain ⟨st, hst, rfl⟩ := answer_write_ok hw
          rw [World.store_commit, apply_delete hst, Store.robin_setRobin_self]
        · obtain ⟨rfl, herr⟩ := answer_write_rejected hw (by simp)
          exact (apply_delete_error herr).2
      · exact none_of_none k (h.gone rk _ rfl k hk)
  · rintro rk rfl
    cases hv with
    | pass => exact bare (h.finished rk rfl)
    | erase => exact bare (h.finished rk rfl)
  · exact bare (h.found_effect ht hr hf he hs' h0 hn)

theorem Clean.next (h : Clean req u w) (ht : Tending req p u w)
    (hr : Runs (tidyProtocol req) req w₀ p w) (hf : Fresh req w₀) {c : Call} {o : Outcome}
    {res : Except ApiError (Reply c)} (hq : Next req p c res q) (hv : UpkeepNext req u c res v)
    (ok : (tidyProtocol req).call c o w = true) (hw : answer c o w = some (res, w')) :
    Clean req v w' := by
  cases hv.handled hw with
  | shrink hsh => exact h.shrink ht hr hf hq hv ok hw hsh
  | put hu hv' hc hst =>
    have hp := hq.issues.of_put hc
    have he := hq.issues.effect ok hw
    subst hu hv'
    refine h.put ht (hr.sourced hf.cursors) ((hr.weaken (tidyProtocol_protocol req)).orderly hf).2
      hr.consults hp ⟨fun rk' => he.spec (hr.versions hf.versions), ?_, ?_, ?_⟩
    · rw [hst]; rfl
    · obtain ⟨o, rfl⟩ | ⟨o, rfl⟩ := hc <;> exact (later_write hw).snapshot
    · obtain ⟨o, rfl⟩ | ⟨o, rfl⟩ := hc <;> exact (later_write hw).consulted

theorem Bare.bindsRobin {st : Store} (h : Bare req st) : BindsRobin req st := by
  intro rb hrb
  rw [h] at hrb
  cases hrb

theorem Tended.clean (h : Tended (tidyProtocol req) req w₀ p u w) (hf : Fresh req w₀)
    (hb : Bare req w₀.store) : Clean req u w := by
  refine h.induct (G := fun _ => Clean req) ?_ ?_ ?_ ?_ ?_ ?_
  · exact ⟨fun _ _ _ _ => hb, fun _ hu => (by cases hu), fun _ hu => (by cases hu),
      fun _ _ hu => (by cases hu), fun _ hu => (by cases hu), fun _ _ _ _ => hb⟩
  · intro p u e w w' h ih ok he
    have hr := h.runs
    cases e with
    | update key spec =>
      exact ih.update (h.tending hf.toNewborn hb.bindsRobin) (hr.versions hf.versions)
        ((Terms.and_right _ _).env _ _ ((Terms.and_right _ _).env _ _ ok)) he
    | robin key s =>
      obtain ⟨c, -, rfl⟩ := env_robin he
      exact ih.robin key s _
    | collect key =>
      exact absurd he ((hr.provenance hf).not_collected (hr.versions hf.versions))
  · intro p u w ih
    exact ⟨ih.zero, fun _ hu => (by cases hu), fun _ hu => (by cases hu),
      fun _ _ hu => (by cases hu), fun _ hu => (by cases hu), fun _ hs => (by cases hs)⟩
  · intro p q u w _ ih _
    exact ih
  · intro p u v w ih hv
    cases hv with
    | cleared hg =>
      exact ⟨ih.zero, fun _ hu => (by cases hu), fun _ hu => (by cases hu),
        fun _ _ hu => (by cases hu), fun rk _ k => ih.gone _ _ rfl k (hg k), ih.found⟩
  · intro p q u v w w' c o res h ih hq hv ok hw
    exact ih.next (h.tending hf.toNewborn hb.bindsRobin) h.runs hf hq hv ok hw

/-- In every run in which the user scales the cluster to zero only once it has a
config, or has nothing of Robin's: a Reconcile that returns after it found the
cluster scaled to zero and without configs leaves no object of Robin behind. -/
theorem empty_cluster_is_bare (hf : Fresh req w₀) (hb : Bare req w₀.store)
    (h : Reaches (tidyProtocol req) (reconcile r req) ⟨w₀, none⟩ s) {a : Result} {rk : Redkey}
    (ha : s.running = some (.ret a)) (hs : s.world.snapshot = some rk)
    (h0 : rk.spec.primaries = 0) (hc : s.world.consulted = some []) : Bare req s.world.store := by
  obtain ⟨p, u, ht⟩ := tended_returned h ha
  exact (ht.clean hf hb).found rk hs h0 hc

theorem bare_sampleWorld (primaries : Nat) : Bare sampleKey (sampleWorld primaries).store :=
  fun _ => rfl

/-- A Reconcile of the sample cluster has returned after it found it scaled to
zero and without configs, and has reported that. -/
def reportsEmpty (s : State server Result) : Bool :=
  hasReturned s && (s.world.snapshot.any fun rk => rk.spec.primaries == 0) &&
    (s.world.consulted.any List.isEmpty) &&
    (s.world.store.redkeys sampleKey).any fun rk =>
      scaledToZero rk && rk.status.phase == .ready && rk.status.replicas == 0

theorem of_reportsEmpty (h : reportsEmpty s = true) :
    ∃ a rk cur, s.running = some (.ret a) ∧ s.world.snapshot = some rk ∧ rk.spec.primaries = 0 ∧
      s.world.consulted = some [] ∧ s.world.store.redkeys sampleKey = some cur ∧
      scaledToZero cur = true ∧ cur.status.phase = .ready ∧ cur.status.replicas = 0 := by
  simp only [reportsEmpty, Bool.and_eq_true] at h
  obtain ⟨⟨⟨hret, hsnap⟩, hcon⟩, hcur⟩ := h
  obtain ⟨a, ha⟩ := of_hasReturned hret
  obtain ⟨rk, hrk, h0⟩ := (Option.any_eq_true _ _).mp hsnap
  obtain ⟨items, hi, hnil⟩ := (Option.any_eq_true _ _).mp hcon
  obtain ⟨cur, hc, hst⟩ := (Option.any_eq_true _ _).mp hcur
  simp only [Bool.and_eq_true, beq_iff_eq] at hst
  exact ⟨a, rk, cur, ha, hrk, by simpa using h0, by rw [hi, List.isEmpty_iff.mp hnil], hc,
    hst.1.1, hst.1.2, hst.2⟩

/-- The cluster is scaled to zero and torn down, and then reconciled once more. -/
def tornDownTwice : List (Move server) :=
  undisturbed ++ [robinMoves 1 .inProgress, scaleTo 0] ++ undisturbed ++
    [robinMoves 1 .applied, robinMoves 2 .inProgress, robinMoves 2 .applied] ++ undisturbed ++
    [.event .start, .drain .ok 60]

set_option maxRecDepth 100000 in
theorem empty_cluster_is_bare_sample :
    ∃ s rk, Reaches (tidyProtocol sampleKey) sampleReconcile ⟨sampleWorld 3, none⟩ s ∧
      s.world.store.redkeys sampleKey = some rk ∧ scaledToZero rk = true ∧
      Bare sampleKey s.world.store := by
  obtain ⟨s, hs, ht⟩ : ∃ s,
      Reaches (tidyProtocol sampleKey) sampleReconcile ⟨sampleWorld 3, none⟩ s ∧
        reportsEmpty s = true :=
    exists_reaches_of_play tornDownTwice _ (by decide +kernel)
  obtain ⟨a, rk, cur, ha, hrk, h0, hc, hcur, hz, -⟩ := of_reportsEmpty ht
  exact ⟨s, cur, hs, hcur, hz,
    empty_cluster_is_bare (fresh_sampleWorld 3) (bare_sampleWorld 3) hs ha hrk h0 hc⟩

/-- A Reconcile has made Robin's objects when the operator crashes, before the
first config. The user then scales the new cluster to zero. -/
def haltBeforeConfig : List (Move server) :=
  [.event .start, .drain .ok 10, .event .stop, scaleTo 0, .event .start, .drain .ok 60]

set_option maxRecDepth 100000 in
theorem empty_cluster_can_keep_robin :
    ¬ ∀ (r : RedkeyReconciler) (req : NamespacedName) (w₀ : World) (s : State server Result)
      (a : Result) (rk cur : Redkey), Fresh req w₀ → Bare req w₀.store →
      Reaches (protocol.and currentGets) (reconcile r req) ⟨w₀, none⟩ s →
      s.running = some (.ret a) → s.world.snapshot = some rk → rk.spec.primaries = 0 →
      s.world.consulted = some [] → s.world.store.redkeys req = some cur →
      scaledToZero cur = true → cur.status.phase = .ready → cur.status.replicas = 0 →
      Bare req s.world.store := by
  intro hall
  obtain ⟨s, hs, ht⟩ : ∃ s,
      Reaches (protocol.and currentGets) sampleReconcile ⟨sampleWorld 3, none⟩ s ∧
        (reportsEmpty s && !isBare sampleKey s.world.store) = true :=
    exists_reaches_of_play haltBeforeConfig _ (by decide +kernel)
  obtain ⟨ht, hbare⟩ := Bool.and_eq_true_iff.mp ht
  obtain ⟨a, rk, cur, ha, hrk, h0, hc, hcur, hz, hp, hn⟩ := of_reportsEmpty ht
  have := hall _ _ _ s a rk cur (fresh_sampleWorld 3) (bare_sampleWorld 3) hs ha hrk h0 hc hcur hz
    hp hn
  rw [isBare_iff.mpr this] at hbare
  cases hbare

end RedkeyOperator.Protocol
