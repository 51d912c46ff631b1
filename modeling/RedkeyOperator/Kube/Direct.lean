import RedkeyOperator.Kube.Frame

/-! # The API server object by object

The same calls answered on the store alone. Whatever else an answer depends on
comes with the call: the time, the order of a list and, for a read from a
cache, what the cache holds. Two runs of a program can so be compared that get
the same of these. `objects` names what a call reads or writes; a write is
judged by its object and changes no other one. -/
namespace RedkeyOperator.Kube
open RedkeyOperator.Api RedkeyOperator.Interleave

inductive ObjectId where
  | redkey (key : NamespacedName)
  | config (key : NamespacedName)
  | robin (k : Kind) (key : NamespacedName)

def Write.object : Write → ObjectId
  | .updateStatus rk => .redkey rk.key
  | .createConfig c => .config c.key
  | .deleteConfig key => .config key
  | .create k o => .robin k o.metadata.key
  | .patch k o => .robin k o.metadata.key
  | .delete k key => .robin k key

/-- The objects a call reads, creates, changes or deletes. -/
def Call.objects : (c : Call) → Except ApiError (Reply c) → List ObjectId
  | .getRedkey key, _ => [.redkey key]
  | .listConfigs _ _, .ok items => List.map (fun c : RedkeyConfig => .config c.key) items
  | .listConfigs _ _, .error _ => []
  | .get k key, _ => [.robin k key]
  | .write a, _ => [a.object]
  | .now, _ | .count _, _ | .recordMetrics _ _, _ | .deleteMetrics _, _ => []

/-! ## The service -/

/-- How a call goes: on the store at some time, on what a cache holds, or with
an error before or after it takes effect. A list comes in the given order. -/
inductive Choice where
  | done (time : Time) (order : List Nat)
  | cached (seen : Store) (order : List Nat)
  | refused
  | lost

/-- The content a read sees. -/
def Choice.view (o : Choice) (st : Store) : Option Store :=
  match o with
  | .done _ _ => some st
  | .cached seen _ => some seen
  | .refused | .lost => none

def Choice.arrange (o : Choice) (items : List RedkeyConfig) : Option (List RedkeyConfig) :=
  match o with
  | .done _ order | .cached _ order =>
    if order.isPerm (List.range items.length) then some (order.filterMap (items[·]?)) else none
  | .refused | .lost => none

theorem Choice.mem_of_arrange {o : Choice} {items l : List RedkeyConfig}
    (h : o.arrange items = some l) : ∀ c ∈ l, c ∈ items := by
  have hmem : ∀ order : List Nat, ∀ c ∈ order.filterMap (items[·]?), c ∈ items := by
    intro order c hc
    obtain ⟨i, -, hi⟩ := List.mem_filterMap.mp hc
    exact List.mem_of_getElem? hi
  cases o with
  | done t order | cached seen order =>
    simp only [Choice.arrange] at h
    split at h <;> cases h
    exact hmem order
  | refused | lost => cases h

/-- A write that arrives: its result and the store after it. -/
def Store.perform (a : Write) (st : Store) : Except ApiError Unit × Store :=
  match st.apply a with
  | .ok st' => (.ok (), st')
  | .error e => (.error e, st)

def serve : (c : Call) → Choice → Store → Option (Except ApiError (Reply c) × Store)
  | .getRedkey _, .refused, st => some (.error .unavailable, st)
  | .getRedkey key, o, st => (o.view st).map fun seen => (found (seen.redkeys key), st)
  | .listConfigs _ _, .refused, st => some (.error .unavailable, st)
  | .listConfigs ns cluster, o, st => (o.view st).bind fun seen =>
    (o.arrange (seen.configsOf clusterLabel ns cluster)).map fun items => (.ok items, st)
  | .get _ _, .refused, st => some (.error .unavailable, st)
  | .get k key, o, st => (o.view st).map fun seen => (found (seen.robin k key), st)
  | .write a, .done _ _, st => some (st.perform a)
  | .write a, .lost, st => some (.error .unavailable, (st.perform a).2)
  | .write _, .refused, st => some (.error .unavailable, st)
  | .write _, .cached _ _, _ => none
  | .now, .done t _, st => some (.ok t, st)
  | .count _, .done _ _, st => some (.ok (), st)
  | .recordMetrics _ _, .done _ _, st => some (.ok (), st)
  | .deleteMetrics _, .done _ _, st => some (.ok (), st)
  | _, _, _ => none

/-- Nothing but the calls happens to the store. -/
def direct : Service api := ⟨Store, Empty, Choice, nofun, serve, id⟩

/-! ## Stores that agree -/

namespace Store
variable {P Q : ObjectId → Prop} {st st' st'' : Store}

/-- The objects of `P` are the same, configs in the same order. -/
structure AgreeOn (P : ObjectId → Prop) (st st' : Store) : Prop where
  redkeys : ∀ key, P (.redkey key) → st.redkeys key = st'.redkeys key
  configs : ∀ p : RedkeyConfig → Bool, (∀ c, p c = true → P (.config c.key)) →
    st.configs.filter p = st'.configs.filter p
  robin : ∀ k key, P (.robin k key) → st.robin k key = st'.robin k key

/-- All objects are the same. -/
structure Same (st st' : Store) : Prop where
  redkeys : st.redkeys = st'.redkeys
  configs : st.configs.Perm st'.configs
  robin : st.robin = st'.robin

theorem Same.symm (h : Same st st') : Same st' st :=
  ⟨h.redkeys.symm, h.configs.symm, h.robin.symm⟩

theorem Same.trans (h : Same st st') (h' : Same st' st'') : Same st st'' :=
  ⟨h.redkeys.trans h'.redkeys, h.configs.trans h'.configs, h.robin.trans h'.robin⟩

namespace AgreeOn

theorem equivalence (P : ObjectId → Prop) : Equivalence (AgreeOn P) where
  refl _ := ⟨fun _ _ => rfl, fun _ _ => rfl, fun _ _ _ => rfl⟩
  symm h := ⟨fun key hk => (h.redkeys key hk).symm, fun p hp => (h.configs p hp).symm,
    fun k key hk => (h.robin k key hk).symm⟩
  trans h h' := ⟨fun key hk => (h.redkeys key hk).trans (h'.redkeys key hk),
    fun p hp => (h.configs p hp).trans (h'.configs p hp),
    fun k key hk => (h.robin k key hk).trans (h'.robin k key hk)⟩

theorem mono (h : AgreeOn P st st') (hQ : ∀ x, Q x → P x) : AgreeOn Q st st' :=
  ⟨fun key hk => h.redkeys key (hQ _ hk), fun p hp => h.configs p fun c hc => hQ _ (hp c hc),
    fun k key hk => h.robin k key (hQ _ hk)⟩

/-- It is enough that the stored configs of the selection are of `P`. -/
theorem filter_configs {p : RedkeyConfig → Bool} (h : AgreeOn P st st')
    (hp : ∀ c ∈ st.configs, p c = true → P (.config c.key))
    (hp' : ∀ c ∈ st'.configs, p c = true → P (.config c.key)) :
    st.configs.filter p = st'.configs.filter p := by
  classical
  have hsub : ∀ {st : Store}, (∀ c ∈ st.configs, p c = true → P (.config c.key)) →
      st.configs.filter p = st.configs.filter fun c => p c && decide (P (.config c.key)) := by
    intro st hp
    refine List.filter_congr fun c hc => ?_
    by_cases hpc : p c = true
    · simp [hpc, hp c hc hpc]
    · simp [hpc]
  rw [hsub hp, hsub hp']
  exact h.configs _ fun c hc => of_decide_eq_true (Bool.and_eq_true_iff.mp hc).2

/-- Two disjoint sets of objects and the rest are all there is. -/
theorem same (hP : AgreeOn P st st') (hQ : AgreeOn Q st st')
    (hrest : AgreeOn (fun x => ¬P x ∧ ¬Q x) st st') (hPQ : ∀ x, P x → ¬Q x) : Same st st' := by
  classical
  refine ⟨funext fun key => ?_, ?_, funext fun k => funext fun key => ?_⟩
  · by_cases hp : P (.redkey key)
    · exact hP.redkeys key hp
    · by_cases hq : Q (.redkey key)
      · exact hQ.redkeys key hq
      · exact hrest.redkeys key ⟨hp, hq⟩
  · -- both lists are made of the same three selections
    let p : RedkeyConfig → Bool := fun c => P (.config c.key)
    let q : RedkeyConfig → Bool := fun c => Q (.config c.key)
    have hsplit : ∀ st : Store, (st.configs.filter p ++ (st.configs.filter q ++
        st.configs.filter fun c => !p c && !q c)).Perm st.configs := by
      intro st
      refine .trans (.append_left _ ?_) (List.filter_append_perm p _)
      refine .trans (.of_eq ?_) (List.filter_append_perm q _)
      rw [List.filter_filter, List.filter_filter]
      congr 1 <;> refine List.filter_congr fun c _ => ?_
      · by_cases hq : Q (.config c.key)
        · have hp : ¬P (.config c.key) := fun hp => hPQ _ hp hq
          simp [p, q, hp, hq]
        · simp [q, hq]
      · exact Bool.and_comm _ _
    have hsel : st.configs.filter (fun c => !p c && !q c) =
        st'.configs.filter fun c => !p c && !q c :=
      hrest.configs _ fun c hc => by simpa [p, q] using hc
    have hp := hP.configs p fun c hc => of_decide_eq_true hc
    have hq := hQ.configs q fun c hc => of_decide_eq_true hc
    exact (hsplit st).symm.trans (.trans (.of_eq (by rw [hp, hq, hsel])) (hsplit st'))
  · by_cases hp : P (.robin k key)
    · exact hP.robin k key hp
    · by_cases hq : Q (.robin k key)
      · exact hQ.robin k key hq
      · exact hrest.robin k key ⟨hp, hq⟩

theorem config (h : AgreeOn P st st') {key : NamespacedName} (hk : P (.config key)) :
    st.config key = st'.config key := by
  have hsel := h.configs (fun c => c.key == key) fun c hc => (beq_iff_eq.mp hc : c.key = key) ▸ hk
  have hhead := congrArg List.head? hsel
  rwa [List.head?_filter, List.head?_filter] at hhead

/-! ### Changes on both sides -/

theorem setRedkey (h : AgreeOn P st st') (rk : Redkey) :
    AgreeOn P (st.setRedkey rk) (st'.setRedkey rk) := by
  refine ⟨fun key hk => ?_, h.configs, h.robin⟩
  by_cases he : key = rk.key
  · simp [Store.setRedkey, he]
  · simpa [Store.setRedkey, he] using h.redkeys key hk

theorem setRobin (h : AgreeOn P st st') (k : Kind) (key : NamespacedName) (o : Option (Obj k)) :
    AgreeOn P (st.setRobin k key o) (st'.setRobin k key o) := by
  refine ⟨h.redkeys, h.configs, fun k' key' hk => ?_⟩
  by_cases he : k' = k ∧ key' = key
  · obtain ⟨rfl, rfl⟩ := he
    simp
  · rw [robin_setRobin_of_ne _ _ (not_and_or.mp he), robin_setRobin_of_ne _ _ (not_and_or.mp he)]
    exact h.robin k' key' hk

theorem addConfig (h : AgreeOn P st st') (c : RedkeyConfig) :
    AgreeOn P { st with configs := st.configs ++ [c] } { st' with configs := st'.configs ++ [c] } :=
  ⟨h.redkeys, fun p hp => by simp only [List.filter_append, h.configs p hp], h.robin⟩

theorem removeConfig (h : AgreeOn P st st') (key : NamespacedName) :
    AgreeOn P (st.removeConfig key) (st'.removeConfig key) := by
  refine ⟨h.redkeys, fun p hp => ?_, h.robin⟩
  simp only [Store.removeConfig]
  rw [List.filter_comm, h.configs p hp, List.filter_comm]

end AgreeOn

/-- A write is judged by its object, and does the same to it. -/
theorem apply_agree {a : Write} (h : AgreeOn P st st') (ha : P a.object) :
    (∃ e, st.apply a = .error e ∧ st'.apply a = .error e) ∨
      ∃ v v', st.apply a = .ok v ∧ st'.apply a = .ok v' ∧ AgreeOn P v v' := by
  cases a with
  | updateStatus rk =>
    simp only [apply, ← h.redkeys _ ha]
    cases st.redkeys rk.key with
    | none => exact .inl ⟨_, rfl, rfl⟩
    | some cur =>
      simp only
      split
      · exact .inr ⟨_, _, rfl, rfl, h.setRedkey _⟩
      · exact .inl ⟨_, rfl, rfl⟩
  | createConfig c =>
    simp only [apply, ← h.config ha]
    split
    · exact .inl ⟨_, rfl, rfl⟩
    · exact .inr ⟨_, _, rfl, rfl, h.addConfig c⟩
  | deleteConfig key =>
    simp only [apply, ← h.config ha]
    split
    · exact .inr ⟨_, _, rfl, rfl, h.removeConfig key⟩
    · exact .inl ⟨_, rfl, rfl⟩
  | create k o =>
    simp only [apply, ← h.robin _ _ ha]
    split
    · exact .inl ⟨_, rfl, rfl⟩
    · exact .inr ⟨_, _, rfl, rfl, h.setRobin k _ _⟩
  | patch k o =>
    simp only [apply, ← h.robin _ _ ha]
    cases st.robin k o.metadata.key with
    | none => exact .inl ⟨_, rfl, rfl⟩
    | some stored => exact .inr ⟨_, _, rfl, rfl, h.setRobin k _ _⟩
  | delete k key =>
    simp only [apply, ← h.robin _ _ ha]
    split
    · exact .inr ⟨_, _, rfl, rfl, h.setRobin k _ _⟩
    · exact .inl ⟨_, rfl, rfl⟩

theorem agreeOn_setRobin (st : Store) {k : Kind} {key : NamespacedName} (o : Option (Obj k))
    (hk : ¬P (.robin k key)) : AgreeOn P st (st.setRobin k key o) := by
  refine ⟨fun _ _ => rfl, fun _ _ => rfl, fun k' key' hk' => ?_⟩
  rw [robin_setRobin_of_ne]
  by_contra! he
  obtain ⟨rfl, rfl⟩ := he
  exact hk hk'

/-- A write leaves every other object as it is. -/
theorem apply_elsewhere {a : Write} (hst : ∀ key rk, st.redkeys key = some rk → rk.key = key)
    (ha : ¬P a.object) (h : st.apply a = .ok st') : AgreeOn P st st' := by
  cases a with
  | updateStatus rk =>
    obtain ⟨cur, hcur, -, rfl⟩ := apply_updateStatus h
    refine ⟨fun key hk => ?_, fun _ _ => rfl, fun _ _ _ => rfl⟩
    have hne : key ≠ (cur.withStatus rk.status).key := by
      rintro rfl
      exact ha (by simpa [Write.object, ← hst _ _ hcur, Redkey.withStatus] using hk)
    simp [setRedkey, hne]
  | createConfig c =>
    obtain ⟨-, rfl⟩ := apply_createConfig h
    refine ⟨fun _ _ => rfl, fun p hp => ?_, fun _ _ _ => rfl⟩
    have hc : p c = false := Bool.eq_false_iff.mpr fun hc => ha (hp c hc)
    simp [List.filter_append, hc]
  | deleteConfig key =>
    obtain ⟨c, -, rfl⟩ := apply_deleteConfig h
    refine ⟨fun _ _ => rfl, fun p hp => ?_, fun _ _ _ => rfl⟩
    simp only [removeConfig, List.filter_filter]
    refine List.filter_congr fun d _ => ?_
    by_cases hd : d.key = key
    · have hpd : p d = false := Bool.eq_false_iff.mpr fun hpd => ha (hd ▸ hp d hpd)
      simp [hpd]
    · simp [hd]
  | create k o =>
    obtain ⟨-, rfl⟩ := apply_create h
    exact agreeOn_setRobin st _ ha
  | patch k o =>
    obtain ⟨_, -, rfl⟩ := apply_patch h
    exact agreeOn_setRobin st _ ha
  | delete k key =>
    obtain rfl := apply_delete h
    exact agreeOn_setRobin st _ ha

end Store

/-! ## Calls -/

section
variable {P : ObjectId → Prop} {c : Call} {o : Choice} {r : Except ApiError (Reply c)}
  {st st' v : Store}

theorem Store.perform_agree {a : Write} (h : st.AgreeOn P v) (ha : P a.object) :
    (st.perform a).1 = (v.perform a).1 ∧ (st.perform a).2.AgreeOn P (v.perform a).2 := by
  unfold Store.perform
  obtain ⟨e, hs, hv⟩ | ⟨s', v', hs, hv, hag⟩ := Store.apply_agree h ha <;> rw [hs, hv]
  · exact ⟨rfl, h⟩
  · exact ⟨rfl, hag⟩

theorem Store.perform_elsewhere {a : Write}
    (hst : ∀ key rk, st.redkeys key = some rk → rk.key = key) (ha : ¬P a.object) :
    st.AgreeOn P (st.perform a).2 := by
  unfold Store.perform
  cases h : st.apply a with
  | ok st' => exact Store.apply_elsewhere hst ha h
  | error e => exact (Store.AgreeOn.equivalence P).refl st

theorem serve_getRedkey {key : NamespacedName} {r : Except ApiError (Reply (.getRedkey key))}
    (hs : serve (.getRedkey key) o st = some (r, st')) :
    (r = .error .unavailable ∧ st' = st) ∨
      ∃ seen, o.view st = some seen ∧ r = found (seen.redkeys key) ∧ st' = st := by
  cases o <;> cases hs
  · exact .inr ⟨_, rfl, rfl, rfl⟩
  · exact .inr ⟨_, rfl, rfl, rfl⟩
  · exact .inl ⟨rfl, rfl⟩

theorem serve_listConfigs {ns cluster : String}
    {r : Except ApiError (Reply (.listConfigs ns cluster))}
    (hs : serve (.listConfigs ns cluster) o st = some (r, st')) :
    (r = .error .unavailable ∧ st' = st) ∨ ∃ seen items, o.view st = some seen ∧
      o.arrange (seen.configsOf clusterLabel ns cluster) = some items ∧ r = .ok items ∧
      st' = st := by
  cases o with
  | refused => cases hs; exact .inl ⟨rfl, rfl⟩
  | lost => cases hs
  | _ =>
    simp only [serve, Option.bind_eq_some_iff] at hs
    obtain ⟨seen, hv, he⟩ := hs
    obtain ⟨items, hi, he⟩ := Option.map_eq_some_iff.mp he
    cases he
    exact .inr ⟨seen, items, hv, hi, rfl, rfl⟩

/-- A call is answered the same by stores that agree on its objects. -/
theorem serve_agree (h : st.AgreeOn P v) (hs : serve c o st = some (r, st'))
    (hobj : ∀ x ∈ c.objects r, P x)
    (hlist : ∀ ns cluster, c = .listConfigs ns cluster →
      st.configsOf clusterLabel ns cluster = v.configsOf clusterLabel ns cluster) :
    ∃ v', serve c o v = some (r, v') ∧ st'.AgreeOn P v' := by
  cases c with
  | getRedkey key =>
    cases o with
    | done t order =>
      cases hs
      refine ⟨v, ?_, h⟩
      simp [serve, Choice.view, h.redkeys key (hobj _ (List.mem_singleton_self _))]
    | cached seen order => cases hs; exact ⟨v, rfl, h⟩
    | refused => cases hs; exact ⟨v, rfl, h⟩
    | lost => cases hs
  | listConfigs ns cluster =>
    cases o with
    | done t order =>
      obtain ⟨items, hi, he⟩ := Option.map_eq_some_iff.mp hs
      cases he
      rw [hlist ns cluster rfl] at hi
      exact ⟨v, Option.map_eq_some_iff.mpr ⟨items, hi, rfl⟩, h⟩
    | cached seen order =>
      obtain ⟨items, hi, he⟩ := Option.map_eq_some_iff.mp hs
      cases he
      exact ⟨v, Option.map_eq_some_iff.mpr ⟨items, hi, rfl⟩, h⟩
    | refused => cases hs; exact ⟨v, rfl, h⟩
    | lost => cases hs
  | get k key =>
    cases o with
    | done t order =>
      cases hs
      refine ⟨v, ?_, h⟩
      simp [serve, Choice.view, h.robin k key (hobj _ (List.mem_singleton_self _))]
    | cached seen order => cases hs; exact ⟨v, rfl, h⟩
    | refused => cases hs; exact ⟨v, rfl, h⟩
    | lost => cases hs
  | write a =>
    obtain ⟨hr, hag⟩ := Store.perform_agree h (hobj _ (List.mem_singleton_self _))
    cases o with
    | done t order =>
      have he : st.perform a = (r, st') := Option.some.inj hs
      refine ⟨(v.perform a).2, ?_, by rwa [he] at hag⟩
      rw [he] at hr
      exact congrArg some (Prod.ext hr.symm rfl)
    | lost => cases hs; exact ⟨_, rfl, hag⟩
    | refused => cases hs; exact ⟨v, rfl, h⟩
    | cached seen order => cases hs
  | now | count _ | recordMetrics _ _ | deleteMetrics _ =>
    cases o <;> cases hs
    exact ⟨v, rfl, h⟩

/-- Nothing but a write changes the store. -/
theorem serve_store (hs : serve c o st = some (r, st')) :
    st' = st ∨ ∃ a, c = .write a ∧ st' = (st.perform a).2 := by
  cases c with
  | getRedkey key =>
    obtain ⟨-, rfl⟩ | ⟨_, -, -, rfl⟩ := serve_getRedkey hs <;> exact .inl rfl
  | listConfigs ns cluster =>
    obtain ⟨-, rfl⟩ | ⟨_, _, -, -, -, rfl⟩ := serve_listConfigs hs <;> exact .inl rfl
  | write a =>
    cases o with
    | done t order =>
      have he : st.perform a = (r, st') := Option.some.inj hs
      exact .inr ⟨a, rfl, by rw [he]⟩
    | cached seen order => cases hs
    | refused => cases hs; exact .inl rfl
    | lost => cases hs; exact .inr ⟨a, rfl, rfl⟩
  | _ =>
    cases o <;> cases hs
    all_goals exact .inl rfl

/-- A call leaves what is not of its objects as it is. -/
theorem serve_elsewhere (hst : ∀ key rk, st.redkeys key = some rk → rk.key = key)
    (hs : serve c o st = some (r, st')) (hobj : ∀ x ∈ c.objects r, ¬P x) : st.AgreeOn P st' := by
  obtain rfl | ⟨a, rfl, rfl⟩ := serve_store hs
  · exact (Store.AgreeOn.equivalence P).refl _
  · exact Store.perform_elsewhere hst (hobj _ (List.mem_singleton_self _))

end

/-! ## The versioned world answers so -/

/-- What a choice takes from a cache was stored once. -/
def Choice.From (stores : List Store) : Choice → Prop
  | .cached seen _ => seen ∈ stores
  | _ => True

theorem store_perform (a : Write) (w : World) :
    w.store.perform a = ((perform a w).1, (perform a w).2.store) := by
  unfold perform Store.perform
  cases w.store.apply a <;> rfl

theorem serve_of_answer {c : Call} {o : Outcome} {r : Except ApiError (Reply c)} {w w' : World}
    (h : answer c o w = some (r, w')) :
    ∃ ch : Choice, ch.From w.history ∧ serve c ch w.store = some (r, w'.store) := by
  cases c with
  | getRedkey key =>
    cases o with
    | ok => cases h; exact ⟨.done 0 [], trivial, rfl⟩
    | _ =>
      obtain ⟨rfl, rfl⟩ | ⟨i, st, hv, rfl, rfl⟩ := answer_getRedkey h
      · exact ⟨.refused, trivial, rfl⟩
      · exact ⟨.cached st [], view_mem hv, rfl⟩
  | listConfigs ns cluster =>
    cases o with
    | refused => cases h; exact ⟨.refused, trivial, rfl⟩
    | lost => cases h
    | ok =>
      cases h
      refine ⟨.done 0 (List.range (w.store.configsOf clusterLabel ns cluster).length), trivial, ?_⟩
      have hperm := List.isPerm_iff.mpr (List.Perm.refl
        (List.range (w.store.configsOf clusterLabel ns cluster).length))
      simp [serve, Choice.view, Choice.arrange, filterMap_range_getElem?, World.sawConfigs, hperm]
      rfl
    | stale i order =>
      simp only [answer, Option.bind_eq_some_iff] at h
      obtain ⟨⟨j, st⟩, hv, he⟩ := h
      obtain ⟨items, hi, he⟩ := Option.map_eq_some_iff.mp he
      cases he
      exact ⟨.cached st order, view_mem hv, Option.map_eq_some_iff.mpr ⟨items, hi, rfl⟩⟩
  | get k key =>
    cases o with
    | ok => cases h; exact ⟨.done 0 [], trivial, rfl⟩
    | _ =>
      obtain ⟨rfl, rfl⟩ | ⟨i, st, hv, rfl, rfl⟩ := answer_get h
      · exact ⟨.refused, trivial, rfl⟩
      · exact ⟨.cached st [], view_mem hv, rfl⟩
  | write a =>
    cases o with
    | ok =>
      have he : perform a w = (r, w') := Option.some.inj h
      refine ⟨.done 0 [], trivial, congrArg some ?_⟩
      rw [store_perform, he]
      rfl
    | lost =>
      cases h
      refine ⟨.lost, trivial, ?_⟩
      simp [serve, store_perform]
    | refused => cases h; exact ⟨.refused, trivial, rfl⟩
    | stale i order => cases h
  | now =>
    cases o <;> cases h
    exact ⟨.done w.clock [], trivial, rfl⟩
  | count _ | recordMetrics _ _ | deleteMetrics _ =>
    cases o <;> cases h
    exact ⟨.done 0 [], trivial, rfl⟩

end RedkeyOperator.Kube
