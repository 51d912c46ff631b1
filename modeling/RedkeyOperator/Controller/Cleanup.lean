import RedkeyOperator.Controller.Pure
import RedkeyOperator.Interleave.Exec
import RedkeyOperator.Kube.Frame

/-! # Pruning of configs

What `cleanupSupersededConfigs` deletes, returns and counts, for any list and
any pattern of failed Deletes, and that it can be resumed on a fresh list. -/
namespace RedkeyOperator.Controller
open RedkeyOperator.Api RedkeyOperator.Kube RedkeyOperator.Interleave

variable {cluster : Redkey} {configs older kept : List RedkeyConfig} {w w' w'' : World}
  {st : Store}

/-- A call is carried out or fails without an effect, and a list is current. -/
def decisive : Terms server where
  env _ _ := false
  call _ o w := match o with
    | .ok | .refused => true
    | .stale i _ => i == w.now
    | .lost => false

theorem answer_delete {key : NamespacedName} {o : Outcome} {r : Except ApiError Unit}
    (ok : decisive.call (.write (.deleteConfig key)) o w = true)
    (h : answer (.write (.deleteConfig key)) o w = some (r, w')) :
    (r = .ok () ∧ (∃ c, w.store.config key = some c) ∧ w'.store = w.store.removeConfig key ∧
        w'.counters = w.counters) ∨
      (r = .error .notFound ∧ w.store.config key = none ∧ w' = w) ∨
      r = .error .unavailable ∧ w' = w := by
  cases o with
  | ok =>
    have hw : Kube.perform (.deleteConfig key) w = (r, w') := Option.some.inj h
    unfold Kube.perform at hw
    cases hst : w.store.apply (.deleteConfig key) with
    | error e =>
      obtain ⟨rfl, hn⟩ := apply_deleteConfig_error hst
      rw [hst] at hw
      cases hw
      exact .inr (.inl ⟨rfl, hn, rfl⟩)
    | ok st =>
      obtain ⟨c, hc, rfl⟩ := apply_deleteConfig hst
      rw [hst] at hw
      cases hw
      exact .inl ⟨rfl, ⟨c, hc⟩, rfl, rfl⟩
  | refused =>
    cases h
    exact .inr (.inr ⟨rfl, rfl⟩)
  | stale i order => cases h
  | lost => cases ok

/-! ## Where the list is split -/

theorem lastAppliedIndex_append {a : RedkeyConfig} {rest : List RedkeyConfig}
    (ha : a.phase = .applied) (hrest : ∀ d ∈ rest, d.phase ≠ .applied) (older : List RedkeyConfig) :
    lastAppliedIndex (older ++ a :: rest) = older.length := by
  induction older with
  | nil =>
    have hany : (rest.any fun d => d.phase == .applied) = false := by
      rw [List.any_eq_false]
      exact fun d hd => by simpa using hrest d hd
    simp [lastAppliedIndex, hany]
  | cons c cs ih =>
    have hany : ((cs ++ a :: rest).any fun d => d.phase == .applied) = true := by
      simp [ha]
    simp [lastAppliedIndex, hany, ih]

/-- `kept` is the list from its last Applied config on, or all of it when there is none. -/
structure Splits (configs older kept : List RedkeyConfig) : Prop where
  append : configs = older ++ kept
  head : (older = [] ∧ ∀ c ∈ kept, c.phase ≠ .applied) ∨
    ∃ a rest, kept = a :: rest ∧ a.phase = .applied ∧ ∀ d ∈ rest, d.phase ≠ .applied

theorem splits_lastApplied (configs : List RedkeyConfig) :
    Splits configs (configs.take (lastAppliedIndex configs))
      (configs.drop (lastAppliedIndex configs)) where
  append := (List.take_append_drop _ _).symm
  head := by
    by_cases h : ∃ c ∈ configs, c.phase = .applied
    · exact .inr (drop_lastAppliedIndex h)
    · have hno : ∀ c ∈ configs, c.phase ≠ .applied := fun c hc hp => h ⟨c, hc, hp⟩
      rw [lastAppliedIndex_eq_zero hno]
      exact .inl ⟨List.take_zero, hno⟩

theorem Splits.lastAppliedIndex (h : Splits configs older kept) :
    lastAppliedIndex configs = older.length := by
  obtain ⟨rfl, ⟨rfl, hno⟩ | ⟨a, rest, rfl, ha, hrest⟩⟩ := h
  · exact lastAppliedIndex_eq_zero hno
  · exact lastAppliedIndex_append ha hrest older

theorem Splits.cleanup_eq (h : Splits configs older kept) :
    cleanupSupersededConfigs configs = deleteOlder older kept := by
  have hn := h.lastAppliedIndex
  obtain ⟨rfl, -⟩ := h
  simp only [cleanupSupersededConfigs, hn, List.take_left, List.drop_left]

/-- Nothing is older than what is kept. -/
theorem Splits.again (h : Splits configs older kept) : Splits kept [] kept where
  append := rfl
  head := by
    obtain ⟨-, hno⟩ | hap := h.head
    · exact .inl ⟨rfl, hno⟩
    · exact .inr hap

theorem Splits.getLast? (h : Splits configs older kept) : kept.getLast? = configs.getLast? := by
  obtain ⟨rfl, ⟨rfl, -⟩ | ⟨a, rest, rfl, -⟩⟩ := h
  · rfl
  · rw [List.getLast?_append_of_ne_nil _ (List.cons_ne_nil _ _)]

/-- Without the oldest config, what is kept and the last config are the same. -/
theorem Splits.tail {c : RedkeyConfig} (h : Splits (c :: older ++ kept) (c :: older) kept) :
    Splits (older ++ kept) older kept ∧ (older ++ kept).getLast? = (c :: older ++ kept).getLast? ∧
      (older ++ kept).isEmpty = false := by
  obtain ⟨-, ⟨hnil, -⟩ | ⟨a, rest, rfl, ha, hrest⟩⟩ := h
  · cases hnil
  · refine ⟨⟨rfl, .inr ⟨a, rest, rfl, ha, hrest⟩⟩, ?_, by simp⟩
    rw [List.getLast?_append_of_ne_nil _ (List.cons_ne_nil _ _),
      List.getLast?_append_of_ne_nil _ (List.cons_ne_nil _ _)]

/-! ## The deletion loop -/

/-- The store without the configs of these names. -/
def without (gone : List NamespacedName) (st : Store) : Store :=
  { st with configs := st.configs.filter fun d => d.key ∉ gone }

theorem mem_without {gone : List NamespacedName} {d : RedkeyConfig} :
    d ∈ (without gone st).configs ↔ d ∈ st.configs ∧ d.key ∉ gone := by
  simp [without]

theorem without_nil (st : Store) : without [] st = st := by simp [without]

theorem without_without (gone gone' : List NamespacedName) (st : Store) :
    without gone' (without gone st) = without (gone ++ gone') st := by
  simp only [without, List.filter_filter, List.mem_append, not_or]
  congr 2
  funext d
  simp [Bool.and_comm]

theorem without_congr {gone gone' : List NamespacedName}
    (h : ∀ d ∈ st.configs, d.key ∈ gone ↔ d.key ∈ gone') : without gone st = without gone' st := by
  unfold without
  congr 1
  refine List.filter_congr fun d hd => ?_
  simp [h d hd]

/-- `w'` is `w` without the configs of these names, and each that was there is counted. -/
structure Removed (gone : List NamespacedName) (w w' : World) : Prop where
  store : w'.store = without gone w.store
  counted : w'.counters = Function.update w.counters .cleanupDeletedConfigs
    (w.counters .cleanupDeletedConfigs + (w.store.configs.filter fun d => d.key ∈ gone).length)

theorem Removed.nil (w : World) : Removed [] w w where
  store := (without_nil _).symm
  counted := by simp

/-- A config that is there is removed and counted, one that is gone is not. -/
theorem Removed.cons {key : NamespacedName} {gone : List NamespacedName} {n : Nat} {v : World}
    (hs : v.store = w.store.removeConfig key)
    (hn : (w.store.configs.filter fun d => d.key = key).length = n)
    (hc : v.counters = Function.update w.counters .cleanupDeletedConfigs
      (w.counters .cleanupDeletedConfigs + n)) (h : Removed gone v w') :
    Removed (key :: gone) w w' where
  store := by
    rw [h.store, hs]
    simp only [without, Store.removeConfig, List.filter_filter, List.mem_cons, not_or]
    congr 2
    funext d
    by_cases hd : d.key = key <;> simp [hd]
  counted := by
    have hsplit : (w.store.configs.filter fun d => d.key ∈ key :: gone).length =
        n + ((w.store.removeConfig key).configs.filter fun d => d.key ∈ gone).length := by
      rw [← hn, Store.removeConfig]
      induction w.store.configs with
      | nil => rfl
      | cons d ds ih =>
        by_cases hd : d.key = key <;> by_cases hg : d.key ∈ gone <;>
          simp_all <;> omega
    rw [h.counted, hc, hs, hsplit]
    simp [Nat.add_assoc]

theorem exec_count {α : Type} {c : Counter} {m : Act α} {res : Except ApiError α}
    (h : Exec decisive ((count c).bind fun _ => m) w res w') :
    ∃ v, v.store = w.store ∧ v.counters = Function.update w.counters c (w.counters c + 1) ∧
      Exec decisive m v res w' := by
  obtain ⟨a, v, hv, hf⟩ | ⟨e, -, hv⟩ := Exec.bind_iff.mp h
  · obtain ⟨o, ok, hw⟩ := Exec.request_iff.mp hv
    cases o <;> cases hw
    exact ⟨_, by rfl, by rfl, hf⟩
  · obtain ⟨o, ok, hw⟩ := Exec.request_iff.mp hv
    cases o <;> cases hw

theorem filter_key_of_none {key : NamespacedName} (h : w.store.config key = none) :
    (w.store.configs.filter fun d => d.key = key).length = 0 := by
  rw [List.length_eq_zero_iff, List.filter_eq_nil_iff]
  intro d hd
  simpa using Store.config_eq_none.mp h d hd

theorem filter_key_of_some {key : NamespacedName} {c : RedkeyConfig}
    (hk : (w.store.configs.map RedkeyConfig.key).Nodup) (h : w.store.config key = some c) :
    (w.store.configs.filter fun d => d.key = key).length = 1 := by
  obtain ⟨hc, rfl⟩ := Store.config_mem h
  have hcount := List.count_eq_one_of_mem hk (List.mem_map_of_mem hc)
  rw [← hcount, List.count, List.countP_map, List.countP_eq_length_filter]
  congr 2

/-- The loop removes the configs up to the first Delete that fails. -/
theorem exec_deleteOlder {res : Except ApiError (List RedkeyConfig × Option ApiError)}
    (hk : (w.store.configs.map RedkeyConfig.key).Nodup)
    (h : Exec decisive (deleteOlder older kept) w res w') :
    ∃ done rest, older = done ++ rest ∧ Removed (done.map RedkeyConfig.key) w w' ∧
      (rest = [] ∧ res = .ok (kept, none) ∨
        rest ≠ [] ∧ ∃ e, res = .ok (rest ++ kept, some e)) := by
  induction older generalizing w with
  | nil =>
    obtain ⟨rfl, rfl⟩ := Exec.ret_iff.mp h
    exact ⟨[], [], rfl, .nil _, .inl ⟨rfl, rfl⟩⟩
  | cons c cs ih =>
    unfold deleteOlder at h
    obtain ⟨r, v, hv, hf⟩ | ⟨e, -, hv⟩ := Exec.bind_iff.mp h
    · obtain ⟨o, r', ok, hw, hr⟩ := Exec.perform_iff.mp hv
      cases hr
      obtain ⟨rfl, ⟨d, hd⟩, hs, hc⟩ | ⟨rfl, hn, rfl⟩ | ⟨rfl, rfl⟩ := answer_delete ok hw
      · obtain ⟨u, hu, hcu, hf⟩ := exec_count hf
        have hku : (u.store.configs.map RedkeyConfig.key).Nodup := by
          rw [hu, hs]
          exact hk.sublist (List.filter_sublist.map _)
        obtain ⟨done, rest, rfl, hrem, hres⟩ := ih hku hf
        refine ⟨c :: done, rest, rfl, ?_, hres⟩
        exact .cons (hu.trans hs) (filter_key_of_some hk hd) (by rw [hcu, hc]) hrem
      · obtain ⟨done, rest, rfl, hrem, hres⟩ := ih hk hf
        refine ⟨c :: done, rest, rfl, ?_, hres⟩
        have hsame : v.store = v.store.removeConfig c.key := by
          rw [Store.removeConfig, List.filter_eq_self.mpr]
          exact fun d hd => bne_iff_ne.mpr (Store.config_eq_none.mp hn d hd)
        exact .cons hsame (filter_key_of_none hn) (Function.update_eq_self _ _).symm hrem
      · obtain ⟨rfl, rfl⟩ := Exec.ret_iff.mp hf
        exact ⟨[], c :: cs, rfl, .nil _, .inr ⟨List.cons_ne_nil _ _, _, rfl⟩⟩
    · obtain ⟨o, r', -, -, hr⟩ := Exec.perform_iff.mp hv
      cases hr

/-- The older configs are removed up to the first Delete that fails. -/
theorem Splits.exec {res : Except ApiError (List RedkeyConfig × Option ApiError)}
    (hs : Splits configs older kept) (hk : (w.store.configs.map RedkeyConfig.key).Nodup)
    (h : Exec decisive (cleanupSupersededConfigs configs) w res w') :
    (res = .ok (kept, none) ∧ Removed (older.map RedkeyConfig.key) w w') ∨
      ∃ done c rest e, older = done ++ c :: rest ∧ res = .ok (c :: rest ++ kept, some e) ∧
        Removed (done.map RedkeyConfig.key) w w' := by
  rw [hs.cleanup_eq] at h
  obtain ⟨done, rest, rfl, hrem, ⟨rfl, rfl⟩ | ⟨hrest, e, rfl⟩⟩ := exec_deleteOlder hk h
  · rw [List.append_nil]
    exact .inl ⟨rfl, hrem⟩
  · obtain ⟨c, rest, rfl⟩ := List.exists_cons_of_ne_nil hrest
    exact .inr ⟨done, c, rest, e, rfl, rfl, hrem⟩

theorem perform_delete (key : NamespacedName) (w : World) :
    (Kube.perform (.deleteConfig key) w).1 = .ok () ∨
      (Kube.perform (.deleteConfig key) w).1 = .error .notFound := by
  unfold Kube.perform
  cases hst : w.store.apply (.deleteConfig key) with
  | ok st => exact .inl rfl
  | error e =>
    obtain ⟨rfl, -⟩ := apply_deleteConfig_error hst
    exact .inr rfl

/-- Without failures the loop comes to its end. -/
theorem succeeds_deleteOlder (older kept : List RedkeyConfig) (w : World) :
    Succeeds decisive (deleteOlder older kept) w fun a _ => a = (kept, none) := by
  induction older generalizing w with
  | nil => exact .ret rfl
  | cons c cs ih =>
    unfold deleteOlder
    refine Succeeds.bind (Q := fun (r : Except ApiError Unit) _ => r = .ok () ∨ r = .error .notFound)
      (Succeeds.perform .ok rfl rfl (perform_delete c.key w)) ?_
    rintro r v (rfl | rfl)
    · exact Succeeds.bind (Q := fun _ _ => True) (Succeeds.request .ok rfl rfl trivial)
        fun _ v _ => ih v
    · exact ih v

/-! ## Resuming on a fresh list -/

/-- The configs of the cluster as `listConfigs` returns them from the store. -/
def freshList (cluster : Redkey) (st : Store) : List RedkeyConfig :=
  sortBySequence (st.configsOf clusterLabel cluster.key.namespace_ cluster.key.name)

def OfCluster (cluster : Redkey) (c : RedkeyConfig) : Prop :=
  c.key.namespace_ = cluster.key.namespace_ ∧
    c.metadata.labels.get clusterLabel = some cluster.key.name

theorem mem_configsOf {c : RedkeyConfig} :
    c ∈ st.configsOf clusterLabel cluster.key.namespace_ cluster.key.name ↔
      c ∈ st.configs ∧ OfCluster cluster c := by
  simp [Store.configsOf, OfCluster]

theorem mem_freshList {c : RedkeyConfig} :
    c ∈ freshList cluster st ↔ c ∈ st.configs ∧ OfCluster cluster c :=
  mem_sortBySequence.trans mem_configsOf

/-- A config of this name is stored. -/
def present (st : Store) (c : RedkeyConfig) : Bool := (st.config c.key).isSome

theorem present_of_mem {c : RedkeyConfig} (h : c ∈ st.configs) : present st c = true := by
  rw [present, Store.config, List.find?_isSome]
  exact ⟨c, h, beq_self_eq_true _⟩

/-- A list of the configs of the cluster, of which some may be gone. -/
structure Listed (cluster : Redkey) (configs : List RedkeyConfig) (st : Store) : Prop where
  ascending : Ascending configs
  keys : (configs.map RedkeyConfig.key).Nodup
  stored : (st.configs.map RedkeyConfig.key).Nodup
  mine : ∀ c ∈ configs, OfCluster cluster c
  listed : ∀ d ∈ st.configs, d.key ∈ configs.map RedkeyConfig.key ∨ OfCluster cluster d →
    d ∈ configs

namespace Listed
variable (h : Listed cluster configs st)
include h

theorem eq_of_key {c d : RedkeyConfig} (hc : c ∈ configs) (hd : d ∈ st.configs)
    (hk : c.key = d.key) : d = c :=
  List.inj_on_of_nodup_map h.keys (h.listed d hd (.inl (hk ▸ List.mem_map_of_mem hc))) hc hk.symm

theorem without (gone : List NamespacedName) : Listed cluster configs (without gone st) where
  ascending := h.ascending
  keys := h.keys
  stored := h.stored.sublist (List.filter_sublist.map _)
  mine := h.mine
  listed d hd := h.listed d (mem_without.mp hd).1

/-- The fresh list has the configs of the list that are left. -/
theorem freshList_eq : freshList cluster st = configs.filter (present st) := by
  refine sortBySequence_eq ?_ (h.ascending.sublist List.filter_sublist)
  rw [List.perm_ext_iff_of_nodup]
  · intro c
    rw [List.mem_filter, mem_configsOf]
    constructor
    · rintro ⟨hc, hmine⟩
      exact ⟨h.listed c hc (.inr hmine), present_of_mem hc⟩
    · rintro ⟨hc, hs⟩
      obtain ⟨d, hd⟩ := Option.isSome_iff_exists.mp hs
      obtain ⟨hmem, hk⟩ := Store.config_mem hd
      obtain rfl := h.eq_of_key hc hmem hk.symm
      exact ⟨hmem, h.mine d hc⟩
  · exact (List.Nodup.of_map _ h.stored).sublist List.filter_sublist
  · exact (List.Nodup.of_map _ h.keys).sublist List.filter_sublist

end Listed

/-- The store once everything before the last Applied config is removed. -/
def prunedStore (cluster : Redkey) (st : Store) : Store :=
  let all := freshList cluster st
  without ((all.take (lastAppliedIndex all)).map RedkeyConfig.key) st

theorem Splits.prunedStore (h : Splits (freshList cluster st) older kept) :
    prunedStore cluster st = without (older.map RedkeyConfig.key) st := by
  rw [Controller.prunedStore, h.lastAppliedIndex]
  conv_lhs => rw [h.append, List.take_left]

/-- After some of the older configs are removed, pruning a fresh list removes the
others, as long as the Applied one is still there. -/
theorem Splits.prunedStore_without {done rest : List RedkeyConfig}
    (hs : Splits configs (done ++ rest) kept) (h : Listed cluster configs st)
    (hmem : ∀ a ∈ kept.head?, a ∈ st.configs) :
    Controller.prunedStore cluster (without (done.map RedkeyConfig.key) st) =
      without ((done ++ rest).map RedkeyConfig.key) st := by
  obtain ⟨rfl, ⟨hnil, hno⟩ | ⟨a, newer, rfl, ha, hnewer⟩⟩ := hs
  · obtain ⟨rfl, rfl⟩ := List.append_eq_nil_iff.mp hnil
    have hfresh : ∀ c ∈ freshList cluster st, c.phase ≠ .applied := fun c hc => by
      rw [h.freshList_eq] at hc
      exact hno c (List.mem_filter.mp hc).1
    rw [List.map_nil, without_nil]
    exact Splits.prunedStore ⟨rfl, .inl ⟨rfl, hfresh⟩⟩
  have hdisj := (List.nodup_append'.mp (List.map_append ▸ h.keys)).2.2
  have hold : a.key ∉ done.map RedkeyConfig.key := by
    intro hk
    rw [List.map_append] at hdisj
    exact hdisj (List.mem_append_left _ hk) List.mem_cons_self
  have ha' : a ∈ (without (done.map RedkeyConfig.key) st).configs :=
    mem_without.mpr ⟨hmem a rfl, hold⟩
  have hfresh := (h.without (done.map RedkeyConfig.key)).freshList_eq
  rw [List.filter_append, List.filter_cons_of_pos (present_of_mem ha')] at hfresh
  rw [Splits.prunedStore ⟨hfresh, .inr ⟨a, _, rfl, ha, fun d hd =>
    hnewer d (List.mem_filter.mp hd).1⟩⟩, without_without]
  refine without_congr fun d hd => ?_
  rw [List.mem_append]
  constructor
  · rintro (hk | hk) <;> obtain ⟨c, hc, hk⟩ := List.mem_map.mp hk <;> rw [← hk]
    · exact List.mem_map_of_mem (List.mem_append_left _ hc)
    · exact List.mem_map_of_mem (List.mem_filter.mp hc).1
  · intro hk
    by_cases hgone : d.key ∈ done.map RedkeyConfig.key
    · exact .inl hgone
    · obtain ⟨c, hc, hk⟩ := List.mem_map.mp hk
      obtain rfl := h.eq_of_key (List.mem_append_left _ hc) hd hk
      exact .inr (List.mem_map_of_mem
        (List.mem_filter.mpr ⟨hc, present_of_mem (mem_without.mpr ⟨hd, hgone⟩)⟩))

/-- The fresh list is one of the cluster's, and nothing of it is gone. -/
theorem Listed.fresh (h : Listed cluster configs st) : Listed cluster (freshList cluster st) st where
  ascending := h.freshList_eq ▸ h.ascending.sublist List.filter_sublist
  keys := h.freshList_eq ▸ h.keys.sublist (List.filter_sublist.map _)
  stored := h.stored
  mine c hc := h.mine c (List.mem_filter.mp (h.freshList_eq ▸ hc)).1
  listed d hd hl := by
    rw [h.freshList_eq]
    refine List.mem_filter.mpr ⟨h.listed d hd (hl.imp_left fun hk => ?_), present_of_mem hd⟩
    obtain ⟨c, hc, hk⟩ := List.mem_map.mp hk
    exact hk ▸ List.mem_map_of_mem (List.mem_filter.mp (h.freshList_eq ▸ hc)).1

/-- List the configs and prune them. -/
def rerun (cluster : Redkey) : Act (List RedkeyConfig × Option ApiError) := do
  let configs ← listConfigs cluster
  cleanupSupersededConfigs configs

theorem exec_rerun {res : Except ApiError (List RedkeyConfig × Option ApiError)}
    (hl : Listed cluster configs w.store) (h : Exec decisive (rerun cluster) w res w') :
    (∃ e, res = .error e) ∧ w' = w ∨ ∃ v, v.store = w.store ∧
      Exec decisive (cleanupSupersededConfigs (freshList cluster w.store)) v res w' := by
  obtain ⟨all, v, hv, hf⟩ | ⟨e, rfl, hv⟩ := Exec.bind_iff.mp h
  · obtain ⟨items, u, hu, hr⟩ | ⟨e, he, -⟩ := Exec.bind_iff.mp hv
    · obtain ⟨o, ok, hw⟩ := Exec.request_iff.mp hu
      obtain ⟨hall, rfl⟩ := Exec.ret_iff.mp hr
      cases hall
      obtain ⟨i, st, hview, hp, rfl⟩ := answer_listConfigs_ok hw
      have hnow : ∀ j order, o = .stale j order → j = w.now := by
        rintro j order rfl
        exact beq_iff_eq.mp ok
      obtain ⟨-, rfl⟩ := view_now hnow hview
      have hsort : sortBySequence items = freshList cluster w.store :=
        sortBySequence_eq (hp.trans (sortBySequence_perm _).symm) hl.fresh.ascending
      exact .inr ⟨w.sawConfigs i items, rfl, hsort ▸ hf⟩
    · cases he
  · obtain ⟨items, u, -, hr⟩ | ⟨e', he, hu⟩ := Exec.bind_iff.mp hv
    · obtain ⟨hr, -⟩ := Exec.ret_iff.mp hr
      cases hr
    · obtain ⟨o, -, hw⟩ := Exec.request_iff.mp hu
      obtain ⟨-, rfl⟩ | ⟨_, _, _, _, _, hr, -⟩ := answer_listConfigs hw
      · exact .inl ⟨⟨_, rfl⟩, rfl⟩
      · cases hr

/-- Re-run until a run succeeds. -/
inductive Reruns (cluster : Redkey) : World → World → Prop where
  | done {w w' : World} {kept : List RedkeyConfig}
      (h : Exec decisive (rerun cluster) w (.ok (kept, none)) w') : Reruns cluster w w'
  | failed {w w' w'' : World} {rest : List RedkeyConfig} {e : ApiError}
      (h : Exec decisive (rerun cluster) w (.ok (rest, some e)) w') (hr : Reruns cluster w' w'') :
      Reruns cluster w w''
  | unlisted {w w' w'' : World} {e : ApiError} (h : Exec decisive (rerun cluster) w (.error e) w')
      (hr : Reruns cluster w' w'') : Reruns cluster w w''

/-- However often it fails, what is left in the end is the pruned store. -/
theorem Reruns.store (h : Reruns cluster w w') (hl : Listed cluster configs w.store) :
    w'.store = prunedStore cluster w.store := by
  induction h with
  | @done w w' kept h =>
    have hs := splits_lastApplied (freshList cluster w.store)
    obtain ⟨⟨e, he⟩, -⟩ | ⟨v, hv, hx⟩ := exec_rerun hl h
    · cases he
    · obtain ⟨-, hrem⟩ | ⟨done, c, rest, e, -, he, -⟩ := hs.exec (hv ▸ hl.stored) hx
      · rw [hrem.store, hv, hs.prunedStore]
      · cases he
  | @failed w w' w'' rest e h _ ih =>
    have hs := splits_lastApplied (freshList cluster w.store)
    obtain ⟨⟨e, he⟩, -⟩ | ⟨v, hv, hx⟩ := exec_rerun hl h
    · cases he
    · obtain ⟨he, -⟩ | ⟨done, c, rest, e, hold, -, hrem⟩ := hs.exec (hv ▸ hl.stored) hx
      · cases he
      · -- the last Applied config was listed, so it is there
        have hmem : ∀ a ∈ ((freshList cluster w.store).drop
            (lastAppliedIndex (freshList cluster w.store))).head?, a ∈ w.store.configs :=
          fun a ha => (mem_freshList.mp (List.mem_of_mem_drop (List.mem_of_mem_head? ha))).1
        have hw : w'.store = _ := hv ▸ hrem.store
        rw [hs.prunedStore, ih (hw ▸ hl.without _), hw]
        rw [hold] at hs ⊢
        exact hs.prunedStore_without hl.fresh hmem
  | unlisted h _ ih =>
    obtain ⟨-, rfl⟩ | ⟨v, hv, hx⟩ := exec_rerun hl h
    · exact ih hl
    · obtain ⟨he, -⟩ | ⟨_, _, _, _, -, he, -⟩ :=
        (splits_lastApplied _).exec (hv ▸ hl.stored) hx <;> cases he

theorem exists_reruns (cluster : Redkey) (w : World) : ∃ w', Reruns cluster w w' := by
  have hx : Succeeds decisive (rerun cluster) w fun a _ => a.2 = none := by
    refine Succeeds.bind (Q := fun _ _ => True) ?_ fun configs v _ => ?_
    · exact Succeeds.bind (Q := fun _ _ => True) (Succeeds.request .ok rfl rfl trivial)
        fun items v _ => .ret trivial
    · refine (succeeds_deleteOlder _ _ v).mono fun a _ ha => ?_
      rw [ha]
  obtain ⟨⟨kept, err⟩, w', h, rfl⟩ := hx
  exact ⟨w', .done h⟩

/-- The list is split at its last Applied config. A call that succeeds removes
and counts exactly the stored configs before it, returns the rest, and has
nothing left to do. A call that fails on a config has removed and counted those
before that one and returns the list from it on; unless the last Applied config
itself is gone, re-running on fresh lists leaves what a success would have left. -/
theorem cleanup_removes_older (h : Listed cluster configs w.store) :
    ∃ older kept, Splits configs older kept ∧ kept.getLast? = configs.getLast? ∧
      cleanupSupersededConfigs kept = .ret (kept, none) ∧
      (∃ v, Exec decisive (cleanupSupersededConfigs configs) w (.ok (kept, none)) v) ∧
      ∀ res w', Exec decisive (cleanupSupersededConfigs configs) w res w' →
        (res = .ok (kept, none) ∧ Removed (older.map RedkeyConfig.key) w w') ∨
        ∃ done c rest e, older = done ++ c :: rest ∧ res = .ok (c :: rest ++ kept, some e) ∧
          Removed (done.map RedkeyConfig.key) w w' ∧
          ((∀ a ∈ kept.head?, a ∈ w.store.configs) → (∃ w'', Reruns cluster w' w'') ∧
            ∀ w'', Reruns cluster w' w'' →
              w''.store = without (older.map RedkeyConfig.key) w.store) := by
  have hs := splits_lastApplied configs
  refine ⟨_, _, hs, hs.getLast?, hs.again.cleanup_eq, ?_, fun res w' hx => ?_⟩
  · obtain ⟨a, v, hx, rfl⟩ := succeeds_deleteOlder (configs.take (lastAppliedIndex configs))
      (configs.drop (lastAppliedIndex configs)) w
    exact ⟨v, hx⟩
  · obtain hdone | ⟨done, c, rest, e, hold, rfl, hrem⟩ := hs.exec h.stored hx
    · exact .inl hdone
    · refine .inr ⟨done, c, rest, e, hold, rfl, hrem, fun hmem => ⟨exists_reruns cluster w', ?_⟩⟩
      intro w'' hr
      rw [hr.store (hrem.store ▸ h.without _), hrem.store]
      rw [hold] at hs ⊢
      exact hs.prunedStore_without h hmem

instance (c : RedkeyConfig) : Decidable (OfCluster cluster c) :=
  inferInstanceAs (Decidable (_ ∧ _))

/-- A config of a small cluster, in a phase. -/
def phased (seq : Nat) (phase : ConfigPhase) : RedkeyConfig :=
  { newConfig emptyRedkey seq with status := { configPhase := phase } }

def phasedConfigs : List RedkeyConfig := [phased 1 .applied, phased 2 .pending, phased 3 .applied]

/-- A world with these configs and nothing else. -/
def worldOf (configs : List RedkeyConfig) : World where
  store := { redkeys := fun _ => none, configs := configs, robin := fun _ _ => none }

theorem listed_phasedConfigs {configs : List RedkeyConfig} (h : configs.Sublist phasedConfigs) :
    Listed emptyRedkey phasedConfigs (worldOf configs).store where
  ascending := by decide
  keys := by decide
  stored := List.Nodup.sublist (h.map RedkeyConfig.key) (by decide)
  mine := by decide
  listed d hd _ := h.subset hd

theorem cleanup_removes_older_sample :
    ∃ older kept v, Splits phasedConfigs older kept ∧
      Exec decisive (cleanupSupersededConfigs phasedConfigs) (worldOf phasedConfigs)
        (.ok (kept, none)) v ∧
      Removed (older.map RedkeyConfig.key) (worldOf phasedConfigs) v := by
  obtain ⟨older, kept, hs, -, -, ⟨v, hv⟩, hall⟩ := cleanup_removes_older
    (listed_phasedConfigs (.refl _))
  obtain ⟨-, hrem⟩ | ⟨_, _, _, _, -, he, -⟩ := hall _ v hv
  · exact ⟨older, kept, v, hs, hv, hrem⟩
  · simp at he

/-- The last Applied config is gone and the first Delete fails: the fresh list
has another last Applied config, and a re-run keeps it. -/
theorem cleanup_can_stop_short :
    ¬ ∀ (cluster : Redkey) (configs kept rest : List RedkeyConfig) (e : ApiError)
      (w w' w'' v : World), Listed cluster configs w.store →
      Exec decisive (cleanupSupersededConfigs configs) w (.ok (rest, some e)) w' →
      Reruns cluster w' w'' →
      Exec decisive (cleanupSupersededConfigs configs) w (.ok (kept, none)) v →
      w''.store = v.store := by
  intro hall
  have hl := listed_phasedConfigs (List.take_sublist 2 phasedConfigs)
  have hfail : Exec decisive (cleanupSupersededConfigs phasedConfigs)
      (worldOf [phased 1 .applied, phased 2 .pending]) _ _ :=
    exec_of_runWith [Outcome.refused] rfl
  have hagain : Exec decisive (rerun emptyRedkey)
      (worldOf [phased 1 .applied, phased 2 .pending]) _ _ :=
    exec_of_runWith [Outcome.ok] rfl
  have hfree : Exec decisive (cleanupSupersededConfigs phasedConfigs)
      (worldOf [phased 1 .applied, phased 2 .pending]) _ _ :=
    exec_of_runWith (List.replicate 4 Outcome.ok) rfl
  have := hall _ _ _ _ _ _ _ _ _ hl hfail (.done hagain) hfree
  exact absurd (congrArg (fun st => st.configs.length) this) (by decide)

end RedkeyOperator.Controller
