import Mathlib.Data.List.Induction
import Mathlib.Data.List.Nodup
import RedkeyOperator.Kube.World

/-! What an answered call can have done to the world: one inversion lemma for
each kind of call and of write. Calls about Robin's own objects, the clock and
the metrics are `Quiet`: they leave Redkeys, configs and their history alone. -/
namespace RedkeyOperator.Kube
open RedkeyOperator.Api

/-! ## Histories -/

@[simp] theorem World.store_commit (w : World) (st : Store) (hs : List Happening) :
    (w.commit st hs).store = st := rfl

@[simp] theorem World.journal_commit (w : World) (st : Store) (hs : List Happening) :
    (w.commit st hs).journal = hs ++ w.journal := rfl

@[simp] theorem World.history_commit (w : World) (st : Store) (hs : List Happening) :
    (w.commit st hs).history = w.history ++ [st] := rfl

/-- The store is as it was, or has one version more. -/
def World.Extends (w w' : World) : Prop :=
  w'.history = w.history ∨ w'.history = w.history ++ [w'.store]

namespace World.Extends
variable {w w' : World} {st : Store}

theorem mem (h : w.Extends w') (hs : st ∈ w'.history) : st ∈ w.history ∨ st = w'.store := by
  obtain h | h := h
  · exact .inl (h ▸ hs)
  · simpa [h] using hs

theorem mono (h : w.Extends w') (hs : st ∈ w.history) : st ∈ w'.history := by
  obtain h | h := h <;> simp [h, hs]

theorem getElem? (h : w.Extends w') {i : Nat} (hs : w'.history[i]? = some st) :
    w.history[i]? = some st ∨ st = w'.store := by
  obtain h | h := h
  · exact .inl (h ▸ hs)
  · rw [h, List.getElem?_append] at hs
    split at hs
    · exact .inl hs
    · exact .inr (List.mem_singleton.mp (List.mem_of_getElem? hs))

theorem pairwise {R : Store → Store → Prop} (h : w.Extends w') (hw : w.history.Pairwise R)
    (hs : ∀ st ∈ w.history, R st w'.store) : w'.history.Pairwise R := by
  obtain h | h := h
  · exact h ▸ hw
  · rw [h, List.pairwise_append]
    refine ⟨hw, List.pairwise_singleton _ _, fun a ha b hb => ?_⟩
    rw [List.mem_singleton.mp hb]
    exact hs a ha

end World.Extends

theorem World.store_mem_history (w : World) : w.store ∈ w.history := by simp [World.history]

theorem World.length_history (w : World) : w.history.length = w.now + 1 := by
  simp [World.history, World.now]

theorem World.history_now (w : World) : w.history[w.now]? = some w.store := by
  simp [World.history, World.now]

/-- In an ordered history every version comes before the store. -/
theorem World.before_store {w : World} {R : Store → Store → Prop} (h : w.history.Pairwise R)
    (hr : R w.store w.store) {st : Store} (hs : st ∈ w.history) : R st w.store := by
  rw [World.history, List.mem_append, List.mem_singleton] at hs
  obtain hs | rfl := hs
  · exact (List.pairwise_append.mp h).2.2 st hs _ (List.mem_singleton.mpr rfl)
  · exact hr

/-- In an ordered history an earlier version comes before a later one. -/
theorem World.before_of_le {w : World} {R : Store → Store → Prop} (h : w.history.Pairwise R)
    {i j : Nat} {a b : Store} (hr : R a a) (hij : i ≤ j) (ha : w.history[i]? = some a)
    (hb : w.history[j]? = some b) : R a b := by
  obtain rfl | hlt := Nat.eq_or_lt_of_le hij
  · rw [ha] at hb
    cases hb
    exact hr
  · obtain ⟨hi, rfl⟩ := List.getElem?_eq_some_iff.mp ha
    obtain ⟨hj, rfl⟩ := List.getElem?_eq_some_iff.mp hb
    exact List.pairwise_iff_getElem.mp h i j hi hj hlt

/-! ## Stored configs -/

theorem Store.config_mem {st : Store} {key : NamespacedName} {c : RedkeyConfig}
    (h : st.config key = some c) : c ∈ st.configs ∧ c.key = key :=
  ⟨List.mem_of_find?_eq_some h, by simpa using List.find?_some h⟩

theorem Store.eq_of_config {st : Store} {key : NamespacedName} {c d : RedkeyConfig}
    (hk : (st.configs.map RedkeyConfig.key).Nodup) (hc : st.config key = some c)
    (hd : d ∈ st.configs) (he : d.key = key) : d = c := by
  obtain ⟨hmem, hkey⟩ := Store.config_mem hc
  exact List.inj_on_of_nodup_map hk hd hmem (he.trans hkey.symm)

theorem Store.config_eq_none {st : Store} {key : NamespacedName} :
    st.config key = none ↔ ∀ c ∈ st.configs, c.key ≠ key := by
  simp [Store.config]

theorem Store.mem_removeConfig {st : Store} {key : NamespacedName} {c : RedkeyConfig} :
    c ∈ (st.removeConfig key).configs ↔ c ∈ st.configs ∧ c.key ≠ key := by
  simp [Store.removeConfig]

theorem Store.mem_setConfigStatus {st : Store} {key : NamespacedName} {s : RedkeyConfigStatus}
    {c : RedkeyConfig} (h : c ∈ (st.setConfigStatus key s).configs) :
    ∃ d ∈ st.configs, (d.key ≠ key ∧ c = d) ∨ (d.key = key ∧ c = { d with status := s }) := by
  obtain ⟨d, hd, rfl⟩ := List.mem_map.mp h
  refine ⟨d, hd, ?_⟩
  by_cases hk : d.key = key <;> simp [hk]

theorem Store.keys_setConfigStatus (st : Store) (key : NamespacedName) (s : RedkeyConfigStatus) :
    (st.setConfigStatus key s).configs.map RedkeyConfig.key = st.configs.map RedkeyConfig.key := by
  simp only [Store.setConfigStatus, List.map_map]
  refine List.map_congr_left fun c _ => ?_
  simp only [Function.comp_apply]
  split <;> rfl

/-! ## Reads -/

theorem view_spec {o : Outcome} {floor : Nat} {w : World} {i : Nat} {st : Store}
    (hf : floor ≤ w.now) (h : o.view floor w = some (i, st)) :
    floor ≤ i ∧ w.history[i]? = some st := by
  cases o with
  | ok =>
    simp only [Outcome.view, Option.some.injEq, Prod.mk.injEq] at h
    obtain ⟨rfl, rfl⟩ := h
    exact ⟨hf, w.history_now⟩
  | stale j order =>
    simp only [Outcome.view] at h
    split at h
    · obtain ⟨st', hst, he⟩ := Option.map_eq_some_iff.mp h
      cases he
      exact ⟨by assumption, hst⟩
    · cases h
  | refused => cases h
  | lost => cases h

theorem view_le_now {w : World} {o : Outcome} {f i : Nat} {st : Store} (hf : f ≤ w.now)
    (hv : o.view f w = some (i, st)) : i ≤ w.now := by
  obtain ⟨hi, -⟩ := List.getElem?_eq_some_iff.mp (view_spec hf hv).2
  rw [World.length_history] at hi
  omega

/-- A read that is not stale sees the store. -/
theorem view_now {w : World} {o : Outcome} {f i : Nat} {st : Store}
    (ho : ∀ j order, o = .stale j order → j = w.now) (hv : o.view f w = some (i, st)) :
    i = w.now ∧ st = w.store := by
  cases o with
  | ok => cases hv; exact ⟨rfl, rfl⟩
  | stale j order =>
    obtain rfl := ho j order rfl
    simp only [Outcome.view] at hv
    split at hv
    · rw [World.history_now] at hv; cases hv; exact ⟨rfl, rfl⟩
    · cases hv
  | refused => cases hv
  | lost => cases hv

/-- Reads are of the current store. -/
def currentReads : Interleave.Terms server where
  env _ _ := true
  call _ o w := match o with
    | .stale i _ => i == w.now
    | _ => true

theorem view_current {c : Call} {w : World} {o : Outcome} {f i : Nat} {st : Store}
    (ok : currentReads.call c o w = true) (hv : o.view f w = some (i, st)) :
    i = w.now ∧ st = w.store := by
  refine view_now ?_ hv
  rintro j order rfl
  exact beq_iff_eq.mp ok

theorem view_mem {o : Outcome} {floor : Nat} {w : World} {i : Nat} {st : Store}
    (h : o.view floor w = some (i, st)) : st ∈ w.history := by
  cases o with
  | ok => cases h; exact w.store_mem_history
  | stale j order =>
    simp only [Outcome.view] at h
    split at h
    · obtain ⟨st', hst, he⟩ := Option.map_eq_some_iff.mp h
      cases he
      exact List.mem_of_getElem? hst
    · cases h
  | refused => cases h
  | lost => cases h

theorem filterMap_range_getElem? {α : Type} (items : List α) :
    (List.range items.length).filterMap (items[·]?) = items := by
  induction items using List.reverseRecOn with
  | nil => rfl
  | append_singleton xs x ih =>
    have hxs : (List.range xs.length).filterMap ((xs ++ [x])[·]?) = xs := by
      refine Eq.trans (List.filterMap_congr fun i hi => ?_) ih
      exact List.getElem?_append_left (List.mem_range.mp hi)
    rw [List.length_append, List.length_singleton, List.range_succ, List.filterMap_append, hxs]
    simp

theorem arrange_perm {o : Outcome} {items l : List RedkeyConfig} (h : o.arrange items = some l) :
    l.Perm items := by
  cases o with
  | stale i order =>
    simp only [Outcome.arrange] at h
    split at h
    · rename_i hp
      cases h
      have := (List.isPerm_iff.mp hp).filterMap (items[·]?)
      rwa [filterMap_range_getElem?] at this
    · cases h
  | _ => cases h; exact .refl _

theorem answer_getRedkey {key : NamespacedName} {o : Outcome} {w w' : World}
    {r : Except ApiError (Reply (.getRedkey key))}
    (h : answer (.getRedkey key) o w = some (r, w')) :
    (r = .error .unavailable ∧ w' = w) ∨ ∃ i st, o.view w.floor.redkey w = some (i, st) ∧
      r = found (st.redkeys key) ∧ w' = w.sawRedkey i (st.redkeys key) := by
  cases o with
  | refused => cases h; exact .inl ⟨rfl, rfl⟩
  | _ =>
    simp only [answer, Option.map_eq_some_iff] at h
    obtain ⟨⟨i, st⟩, hv, he⟩ := h
    cases he
    exact .inr ⟨i, st, hv, rfl, rfl⟩

theorem answer_listConfigs {ns cluster : String} {o : Outcome} {w w' : World}
    {r : Except ApiError (Reply (.listConfigs ns cluster))}
    (h : answer (.listConfigs ns cluster) o w = some (r, w')) :
    (r = .error .unavailable ∧ w' = w) ∨ ∃ i st items, o.view w.floor.config w = some (i, st) ∧
      items.Perm (st.configsOf clusterLabel ns cluster) ∧ r = .ok items ∧
      w' = w.sawConfigs i items := by
  cases o with
  | refused => cases h; exact .inl ⟨rfl, rfl⟩
  | _ =>
    simp only [answer, Option.bind_eq_some_iff] at h
    obtain ⟨⟨i, st⟩, hv, he⟩ := h
    obtain ⟨items, hi, he⟩ := Option.map_eq_some_iff.mp he
    cases he
    exact .inr ⟨i, st, items, hv, arrange_perm hi, rfl, rfl⟩

theorem answer_getRedkey_ok {key : NamespacedName} {o : Outcome} {w w' : World} {rk : Redkey}
    (h : answer (.getRedkey key) o w = some (.ok rk, w')) :
    ∃ i st, o.view w.floor.redkey w = some (i, st) ∧ st.redkeys key = some rk ∧
      w' = w.sawRedkey i (some rk) := by
  obtain ⟨hr, -⟩ | ⟨i, st, hv, hr, rfl⟩ := answer_getRedkey h
  · cases hr
  · cases hst : st.redkeys key with
    | none => rw [hst] at hr; cases hr
    | some rk' => rw [hst] at hr; cases hr; exact ⟨i, st, hv, hst, rfl⟩

theorem answer_listConfigs_ok {ns cluster : String} {o : Outcome} {w w' : World}
    {items : List RedkeyConfig} (h : answer (.listConfigs ns cluster) o w = some (.ok items, w')) :
    ∃ i st, o.view w.floor.config w = some (i, st) ∧
      items.Perm (st.configsOf clusterLabel ns cluster) ∧ w' = w.sawConfigs i items := by
  obtain ⟨hr, -⟩ | ⟨i, st, items', hv, hp, hr, rfl⟩ := answer_listConfigs h
  · cases hr
  · cases hr; exact ⟨i, st, hv, hp, rfl⟩

theorem answer_get {k : Kind} {key : NamespacedName} {o : Outcome} {w w' : World}
    {r : Except ApiError (Reply (.get k key))} (h : answer (.get k key) o w = some (r, w')) :
    (r = .error .unavailable ∧ w' = w) ∨ ∃ i st, o.view (w.floor.robin k) w = some (i, st) ∧
      r = found (st.robin k key) ∧ w' = w.sawRobin k i := by
  cases o with
  | refused => cases h; exact .inl ⟨rfl, rfl⟩
  | _ =>
    simp only [answer, Option.map_eq_some_iff] at h
    obtain ⟨⟨i, st⟩, hv, he⟩ := h
    cases he
    exact .inr ⟨i, st, hv, rfl, rfl⟩

theorem answer_get_ok {k : Kind} {key : NamespacedName} {o : Outcome} {w w' : World} {obj : Obj k}
    (h : answer (.get k key) o w = some (.ok obj, w')) :
    ∃ st ∈ w.history, st.robin k key = some obj := by
  obtain ⟨hr, -⟩ | ⟨i, st, hv, hr, -⟩ := answer_get h
  · cases hr
  · cases hst : st.robin k key with
    | none => rw [hst] at hr; cases hr
    | some o' => rw [hst] at hr; cases hr; exact ⟨st, view_mem hv, hst⟩

/-! ## Writes -/

/-- A write has no effect and an error, or its effect and perhaps a lost answer. -/
theorem answer_write {a : Write} {o : Outcome} {w w' : World} {r : Except ApiError Unit}
    (h : answer (.write a) o w = some (r, w')) :
    (w' = w ∧ ∃ e, r = .error e ∧ (e = .unavailable ∨ w.store.apply a = .error e)) ∨
      ∃ st, w.store.apply a = .ok st ∧ w' = w.commit st (happenings a w.store st) ∧
        (r = .ok () ∨ r = .error .unavailable) := by
  have hp : (∃ e, w.store.apply a = .error e ∧ perform a w = (.error e, w)) ∨
      ∃ st, w.store.apply a = .ok st ∧
        perform a w = (.ok (), w.commit st (happenings a w.store st)) := by
    unfold perform
    cases hs : w.store.apply a with
    | error e => exact .inl ⟨e, rfl, rfl⟩
    | ok st => exact .inr ⟨st, rfl, rfl⟩
  cases o with
  | ok =>
    have hw : perform a w = (r, w') := Option.some.inj h
    obtain ⟨e, he, hq⟩ | ⟨st, hst, hq⟩ := hp
    · rw [hq] at hw; cases hw; exact .inl ⟨rfl, e, rfl, .inr he⟩
    · rw [hq] at hw; cases hw; exact .inr ⟨st, hst, rfl, .inl rfl⟩
  | lost =>
    cases h
    obtain ⟨e, he, hq⟩ | ⟨st, hst, hq⟩ := hp
    · rw [hq]; exact .inl ⟨rfl, .unavailable, rfl, .inl rfl⟩
    · rw [hq]; exact .inr ⟨st, hst, rfl, .inr rfl⟩
  | refused => cases h; exact .inl ⟨rfl, .unavailable, rfl, .inl rfl⟩
  | stale i order => cases h

theorem answer_write_ok {a : Write} {o : Outcome} {w w' : World}
    (h : answer (.write a) o w = some (.ok (), w')) :
    ∃ st, w.store.apply a = .ok st ∧ w' = w.commit st (happenings a w.store st) := by
  obtain ⟨-, e, he, -⟩ | ⟨st, hst, hw, -⟩ := answer_write h
  · cases he
  · exact ⟨st, hst, hw⟩

/-- An answer that names a reason is the API server's, and nothing was written. -/
theorem answer_write_rejected {a : Write} {o : Outcome} {w w' : World} {e : ApiError}
    (h : answer (.write a) o w = some (.error e, w')) (he : e ≠ .unavailable) :
    w' = w ∧ w.store.apply a = .error e := by
  obtain ⟨hw, e', hr, hs⟩ | ⟨st, -, -, hr⟩ := answer_write h
  · cases hr
    exact ⟨hw, hs.resolve_left he⟩
  · obtain hr | hr := hr <;> cases hr
    exact absurd rfl he

theorem apply_updateStatus {rk : Redkey} {st st' : Store}
    (h : st.apply (.updateStatus rk) = .ok st') :
    ∃ cur, st.redkeys rk.key = some cur ∧ rk.resourceVersion = cur.resourceVersion ∧
      st' = st.setRedkey (cur.withStatus rk.status) := by
  simp only [Store.apply] at h
  split at h
  · cases h
  · rename_i cur hcur
    split at h
    · rename_i hv
      cases h
      exact ⟨cur, hcur, by simpa using hv, rfl⟩
    · cases h

theorem apply_createConfig {c : RedkeyConfig} {st st' : Store}
    (h : st.apply (.createConfig c) = .ok st') :
    st.config c.key = none ∧ st' = { st with configs := st.configs ++ [c] } := by
  simp only [Store.apply] at h
  split at h
  · cases h
  · rename_i hn
    cases h
    exact ⟨by simpa using hn, rfl⟩

theorem apply_createConfig_error {c : RedkeyConfig} {st : Store} {e : ApiError}
    (h : st.apply (.createConfig c) = .error e) : e = .alreadyExists ∧ (st.config c.key).isSome := by
  simp only [Store.apply] at h
  split at h
  · cases h; exact ⟨rfl, by assumption⟩
  · cases h

theorem apply_deleteConfig {key : NamespacedName} {st st' : Store}
    (h : st.apply (.deleteConfig key) = .ok st') :
    ∃ c, st.config key = some c ∧ st' = st.removeConfig key := by
  simp only [Store.apply] at h
  split at h
  · rename_i hs
    cases h
    obtain ⟨c, hc⟩ := Option.isSome_iff_exists.mp hs
    exact ⟨c, hc, rfl⟩
  · cases h

theorem apply_deleteConfig_error {key : NamespacedName} {st : Store} {e : ApiError}
    (h : st.apply (.deleteConfig key) = .error e) : e = .notFound ∧ st.config key = none := by
  simp only [Store.apply] at h
  split at h
  · cases h
  · rename_i hn
    cases h
    exact ⟨rfl, by simpa using hn⟩

/-! ## Writes to Robin's objects -/

@[simp] theorem Store.robin_setRobin_self (st : Store) (k : Kind) (key : NamespacedName)
    (o : Option (Obj k)) : (st.setRobin k key o).robin k key = o := by
  simp [Store.setRobin]

theorem Store.robin_setRobin_of_ne (st : Store) {k k' : Kind} {key key' : NamespacedName}
    (o : Option (Obj k)) (h : k' ≠ k ∨ key' ≠ key) :
    (st.setRobin k key o).robin k' key' = st.robin k' key' := by
  by_cases hk : k' = k
  · subst hk
    simp [Store.setRobin, h.resolve_left (absurd rfl)]
  · simp [Store.setRobin, hk]

theorem apply_create {k : Kind} {o : Obj k} {st st' : Store}
    (h : st.apply (.create k o) = .ok st') :
    st.robin k o.metadata.key = none ∧ st' = st.setRobin k o.metadata.key (some o) := by
  simp only [Store.apply] at h
  split at h
  · cases h
  · rename_i hn
    cases h
    exact ⟨by simpa using hn, rfl⟩

theorem apply_patch {k : Kind} {o : Obj k} {st st' : Store} (h : st.apply (.patch k o) = .ok st') :
    ∃ stored, st.robin k o.metadata.key = some stored ∧
      st' = st.setRobin k o.metadata.key (some (patched stored o)) := by
  simp only [Store.apply] at h
  split at h
  · cases h
  · rename_i stored hs
    cases h
    exact ⟨stored, hs, rfl⟩

theorem apply_delete {k : Kind} {key : NamespacedName} {st st' : Store}
    (h : st.apply (.delete k key) = .ok st') : st' = st.setRobin k key none := by
  simp only [Store.apply] at h
  split at h
  · cases h; rfl
  · cases h

theorem apply_delete_error {k : Kind} {key : NamespacedName} {st : Store} {e : ApiError}
    (h : st.apply (.delete k key) = .error e) : e = .notFound ∧ st.robin k key = none := by
  simp only [Store.apply] at h
  split at h
  · cases h
  · rename_i hn
    cases h
    exact ⟨rfl, by simpa using hn⟩

/-! ## The environment -/

theorem env_update {key : NamespacedName} {spec : RedkeySpec} {w w' : World}
    (h : env (.update key spec) w = some w') :
    ∃ rk, w.store.redkeys key = some rk ∧ rk.generation + 1 < 2 ^ 63 ∧
      w' = w.commit (w.store.setRedkey (rk.withSpec spec)) [] := by
  obtain ⟨rk, hrk, h⟩ := Option.bind_eq_some_iff.mp h
  split at h
  · rename_i hg
    cases h
    exact ⟨rk, hrk, hg, rfl⟩
  · cases h

theorem env_robin {key : NamespacedName} {s : RedkeyConfigStatus} {w w' : World}
    (h : env (.robin key s) w = some w') :
    ∃ c, w.store.config key = some c ∧
      w' = w.commit (w.store.setConfigStatus key s) (moves c s) := by
  obtain ⟨c, hc, rfl⟩ := Option.map_eq_some_iff.mp h
  exact ⟨c, hc, rfl⟩

theorem eq_of_mem_moves {c : RedkeyConfig} {s : RedkeyConfigStatus} {x : Happening}
    (h : x ∈ moves c s) : x = .moved { c with status := s } ∧ c.phase ≠ s.configPhase := by
  unfold moves at h
  split at h
  · cases h
  · exact ⟨List.mem_singleton.mp h, by assumption⟩

theorem env_collect {key : NamespacedName} {w w' : World} (h : env (.collect key) w = some w') :
    ∃ c, w.store.config key = some c ∧
      (∀ rk, parent w.store c = some rk → c.metadata.owner ≠ some rk.uid) ∧
      w' = w.commit (w.store.removeConfig key) [.collected c] := by
  obtain ⟨c, hc, h⟩ := Option.bind_eq_some_iff.mp h
  split at h
  · cases h
  · rename_i hp
    cases h
    refine ⟨c, hc, fun rk hrk ho => hp ?_, rfl⟩
    simp [hrk, ho]

/-! ## Calls that leave Redkeys and configs alone -/

/-- Writes to the objects of Robin. -/
def RobinWrite : Call → Prop
  | .write (.create _ _) | .write (.patch _ _) | .write (.delete _ _) => True
  | _ => False

/-- Calls that change nothing in the store. -/
def Free : Call → Prop
  | .get _ _ | .now | .count _ | .recordMetrics _ _ | .deleteMetrics _ => True
  | _ => False

/-- `w'` is `w` but for Robin's objects, their informers, the clock and the counters. -/
structure Quiet (w w' : World) : Prop where
  redkeys : w'.store.redkeys = w.store.redkeys
  configs : w'.store.configs = w.store.configs
  history : w'.history = w.history ∨ w'.history = w.history ++ [w'.store]
  floor : w'.floor = w.floor
  seenRedkey : w'.seen.redkey = w.seen.redkey
  seenConfig : w'.seen.config = w.seen.config
  snapshot : w'.snapshot = w.snapshot
  consulted : w'.consulted = w.consulted
  listed : w'.listed = w.listed
  journal : w'.journal = w.journal

theorem Quiet.refl (w : World) : Quiet w w := ⟨rfl, rfl, .inl rfl, rfl, rfl, rfl, rfl, rfl, rfl, rfl⟩

theorem Quiet.now_le {w w' : World} (h : Quiet w w') : w.now ≤ w'.now := by
  have hl : w.history.length ≤ w'.history.length := by
    obtain h | h := h.history <;> simp [h]
  rw [World.length_history, World.length_history] at hl
  omega

theorem quiet_apply {a : Write} {st st' : Store} (ha : RobinWrite (.write a))
    (h : st.apply a = .ok st') : st'.redkeys = st.redkeys ∧ st'.configs = st.configs := by
  cases a with
  | updateStatus rk => cases ha
  | createConfig c => cases ha
  | deleteConfig key => cases ha
  | create k o =>
    simp only [Store.apply] at h
    split at h <;> cases h
    exact ⟨rfl, rfl⟩
  | patch k o =>
    simp only [Store.apply] at h
    split at h <;> cases h
    exact ⟨rfl, rfl⟩
  | delete k key =>
    simp only [Store.apply] at h
    split at h <;> cases h
    exact ⟨rfl, rfl⟩

theorem quiet_answer {c : Call} (hc : RobinWrite c ∨ Free c) {o : Outcome} {w w' : World}
    {r : Except ApiError (Reply c)} (h : answer c o w = some (r, w')) : Quiet w w' := by
  cases c with
  | getRedkey key => rcases hc with hc | hc <;> cases hc
  | listConfigs ns cl => rcases hc with hc | hc <;> cases hc
  | write a =>
    have ha : RobinWrite (.write a) := by
      rcases hc with hc | hc
      · exact hc
      · cases hc
    obtain ⟨rfl, -⟩ | ⟨st, hst, rfl, -⟩ := answer_write h
    · exact .refl _
    · have hj : happenings a w.store st = [] := by
        cases a <;> first | rfl | cases ha
      obtain ⟨hr, hcs⟩ := quiet_apply ha hst
      exact ⟨hr, hcs, .inr rfl, rfl, rfl, rfl, rfl, rfl, rfl, by simp [World.commit, hj]⟩
  | get k key =>
    obtain ⟨-, rfl⟩ | ⟨i, st, -, -, rfl⟩ := answer_get h
    · exact .refl w'
    · exact ⟨rfl, rfl, .inl rfl, rfl, rfl, rfl, rfl, rfl, rfl, rfl⟩
  | now => cases o <;> cases h; exact ⟨rfl, rfl, .inl rfl, rfl, rfl, rfl, rfl, rfl, rfl, rfl⟩
  | count k => cases o <;> cases h; exact ⟨rfl, rfl, .inl rfl, rfl, rfl, rfl, rfl, rfl, rfl, rfl⟩
  | recordMetrics rk a => cases o <;> cases h; exact .refl w
  | deleteMetrics key => cases o <;> cases h; exact .refl w

/-! ## Steps and the history -/

theorem env_extends {e : Ev} {w w' : World} (h : env e w = some w') : w.Extends w' := by
  cases e with
  | update key spec => obtain ⟨rk, -, -, rfl⟩ := env_update h; exact .inr rfl
  | robin key s => obtain ⟨c, -, rfl⟩ := env_robin h; exact .inr rfl
  | collect key => obtain ⟨c, -, -, rfl⟩ := env_collect h; exact .inr rfl

theorem answer_extends {c : Call} {o : Outcome} {w w' : World} {r : Except ApiError (Reply c)}
    (h : answer c o w = some (r, w')) : w.Extends w' := by
  cases c with
  | getRedkey key =>
    obtain ⟨-, rfl⟩ | ⟨i, st, -, -, rfl⟩ := answer_getRedkey h <;> exact .inl rfl
  | listConfigs ns cluster =>
    obtain ⟨-, rfl⟩ | ⟨i, st, items, -, -, -, rfl⟩ := answer_listConfigs h <;> exact .inl rfl
  | write a =>
    obtain ⟨rfl, -⟩ | ⟨st, -, rfl, -⟩ := answer_write h
    · exact .inl rfl
    · exact .inr rfl
  | get k key => exact (quiet_answer (c := .get k key) (.inr trivial) h).history
  | now => exact (quiet_answer (c := .now) (.inr trivial) h).history
  | count k => exact (quiet_answer (c := .count k) (.inr trivial) h).history
  | recordMetrics rk a => exact (quiet_answer (c := .recordMetrics rk a) (.inr trivial) h).history
  | deleteMetrics key => exact (quiet_answer (c := .deleteMetrics key) (.inr trivial) h).history

theorem env_robin_eq {e : Ev} {w w' : World} (h : env e w = some w') :
    w'.store.robin = w.store.robin := by
  cases e with
  | update key spec => obtain ⟨rk, -, -, rfl⟩ := env_update h; rfl
  | robin key s => obtain ⟨c, -, rfl⟩ := env_robin h; rfl
  | collect key => obtain ⟨c, -, -, rfl⟩ := env_collect h; rfl

theorem answer_robin_eq {c : Call} (hc : ¬ RobinWrite c) {o : Outcome} {w w' : World}
    {r : Except ApiError (Reply c)} (h : answer c o w = some (r, w')) :
    w'.store.robin = w.store.robin := by
  cases c with
  | getRedkey key =>
    obtain ⟨-, rfl⟩ | ⟨i, st, -, -, rfl⟩ := answer_getRedkey h <;> rfl
  | listConfigs ns cluster =>
    obtain ⟨-, rfl⟩ | ⟨i, st, items, -, -, -, rfl⟩ := answer_listConfigs h <;> rfl
  | write a =>
    obtain ⟨rfl, -⟩ | ⟨st, hst, rfl, -⟩ := answer_write h
    · rfl
    · cases a with
      | updateStatus rk => obtain ⟨cur, -, -, rfl⟩ := apply_updateStatus hst; rfl
      | createConfig c => obtain ⟨-, rfl⟩ := apply_createConfig hst; rfl
      | deleteConfig key => obtain ⟨c, -, rfl⟩ := apply_deleteConfig hst; rfl
      | _ => exact absurd trivial hc
  | get k key => obtain ⟨-, rfl⟩ | ⟨i, st, -, -, rfl⟩ := answer_get h <;> rfl
  | now => cases o <;> cases h; rfl
  | count k => cases o <;> cases h; rfl
  | recordMetrics rk a => cases o <;> cases h; rfl
  | deleteMetrics key => cases o <;> cases h; rfl

/-- What a call does to the configs: nothing, or it creates or deletes one. -/
theorem answer_configs {c : Call} {o : Outcome} {w w' : World} {r : Except ApiError (Reply c)}
    (h : answer c o w = some (r, w')) :
    (w'.store.configs = w.store.configs ∧ w'.journal = w.journal) ∨
      (∃ d, c = .write (.createConfig d) ∧ w.store.config d.key = none ∧
        w' = w.commit { w.store with configs := w.store.configs ++ [d] } [.created d]) ∨
      ∃ key d, c = .write (.deleteConfig key) ∧ w.store.config key = some d ∧
        w' = w.commit (w.store.removeConfig key)
          [.deleted d (!(w.store.removeConfig key).configs.any (sameCluster d))] := by
  have quiet : RobinWrite c ∨ Free c → w'.store.configs = w.store.configs ∧ w'.journal = w.journal :=
    fun hq => ⟨(quiet_answer hq h).configs, (quiet_answer hq h).journal⟩
  cases c with
  | getRedkey key =>
    obtain ⟨-, rfl⟩ | ⟨i, st, -, -, rfl⟩ := answer_getRedkey h <;> exact .inl ⟨rfl, rfl⟩
  | listConfigs ns cluster =>
    obtain ⟨-, rfl⟩ | ⟨i, st, items, -, -, -, rfl⟩ := answer_listConfigs h <;> exact .inl ⟨rfl, rfl⟩
  | write a =>
    obtain ⟨rfl, -⟩ | ⟨st, hst, hw, -⟩ := answer_write h
    · exact .inl ⟨rfl, rfl⟩
    · cases a with
      | updateStatus rk =>
        obtain ⟨cur, -, -, rfl⟩ := apply_updateStatus hst
        subst hw
        exact .inl ⟨rfl, rfl⟩
      | createConfig c =>
        obtain ⟨hn, rfl⟩ := apply_createConfig hst
        exact .inr (.inl ⟨c, rfl, hn, hw⟩)
      | deleteConfig key =>
        obtain ⟨d, hd, rfl⟩ := apply_deleteConfig hst
        simp only [happenings, hd] at hw
        exact .inr (.inr ⟨key, d, rfl, hd, hw⟩)
      | _ => exact .inl (quiet (.inl trivial))
  | _ => exact .inl (quiet (.inr trivial))

end RedkeyOperator.Kube
