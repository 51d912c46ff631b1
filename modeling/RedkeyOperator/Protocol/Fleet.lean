import Mathlib.Order.MinMax
import RedkeyOperator.Kube.Fleet
import RedkeyOperator.Protocol.Newest
import RedkeyOperator.Protocol.Part

/-! # Many Redkeys under one operator

The manager reconciles many Redkeys at once against one API server. Seen from
one Redkey, every run of the whole is a run of that Redkey alone: the part of
the store that is about it goes through the same versions, with what happens to
the others left out, and its Reconciles get the same answers. So whatever holds
in every run of one Redkey holds for all of them at once. -/
namespace RedkeyOperator.Protocol
open RedkeyOperator.Api RedkeyOperator.Kube RedkeyOperator.Interleave RedkeyOperator.Controller

variable {a b : NamespacedName} {st st' : Store}

/-! ## The terms -/

/-- The configs of the same cluster. -/
def siblings (st : Store) (c : RedkeyConfig) : List RedkeyConfig :=
  st.configs.filter (sameCluster c)

/-- Every Robin keeps to its protocol on the configs of its own cluster. -/
def fleetRobins : Hub.Terms fleet where
  env e f := match e with
    | .robin key s => (f.store.config key).all fun c =>
      robinMay (siblings f.store c) c s.configPhase
    | _ => true
  call _ _ _ _ := true

/-- And lists of configs are current. -/
def fleetProtocol : Hub.Terms fleet where
  env := fleetRobins.env
  call _ c o f := match c, o with
    | .listConfigs _ _, .stale i _ => i == f.past.length
    | _, _ => true

/-! ## Worlds side by side -/

/-- Cursors that are not ahead, when version `i` of one is version `φ i` of the other. -/
structure Behind (φ : Nat → Nat) (c d : Cursor) : Prop where
  redkey : c.redkey ≤ φ d.redkey
  config : c.config ≤ φ d.config
  robin : ∀ k, c.robin k ≤ φ (d.robin k)

/-- The world `u` of one Redkey alone goes through the versions of its part of `w`:
version `i` of `w` is there as version `φ i`. -/
structure Reflects (a : NamespacedName) (φ : Nat → Nat) (w u : World) : Prop where
  store : u.store = partOf a w.store
  mono : Monotone φ
  le : ∀ i, φ i ≤ u.now
  now : φ w.now = u.now
  version : ∀ i st, w.history[i]? = some st → u.history[φ i]? = some (partOf a st)
  clock : u.clock = w.clock
  floor : Behind φ u.floor w.floor
  seen : Behind φ u.seen w.seen
  journal : u.journal = w.journal.filter (concerns a)

/-- The same read of the other world. -/
def through (φ : Nat → Nat) : Outcome → Outcome
  | .stale i order => .stale (φ i) order
  | o => o

theorem arrange_through (φ : Nat → Nat) (o : Outcome) (items : List RedkeyConfig) :
    (through φ o).arrange items = o.arrange items := by
  cases o <;> rfl

section Reflects
variable {φ : Nat → Nat} {w w' u u' : World}

theorem Reflects.view (h : Reflects a φ w u) {o : Outcome} {f g i : Nat} (hg : g ≤ φ f)
    (hv : o.view f w = some (i, st)) : (through φ o).view g u = some (φ i, partOf a st) := by
  cases o with
  | ok =>
    cases hv
    simp only [through, Outcome.view, h.now, h.store]
  | stale j order =>
    simp only [Outcome.view] at hv
    split at hv
    · rename_i hf
      obtain ⟨st', hst, he⟩ := Option.map_eq_some_iff.mp hv
      cases he
      have hle : g ≤ φ i := hg.trans (h.mono hf)
      simp only [through, Outcome.view, if_pos hle, h.version i st hst, Option.map_some]
    · cases hv
  | refused => cases hv
  | lost => cases hv

theorem Behind.mono {ψ : Nat → Nat} {c d : Cursor} (h : Behind φ c d) (hle : ∀ i, φ i ≤ ψ i) :
    Behind ψ c d :=
  ⟨h.redkey.trans (hle _), h.config.trans (hle _), fun k => (h.robin k).trans (hle _)⟩

/-- One more version of `w`, and perhaps of `u`. -/
theorem Reflects.extend (h : Reflects a φ w u) (hw : w'.past = w.past ++ [w.store])
    (hu : u' = u ∨ u'.past = u.past ++ [u.store]) (hstore : u'.store = partOf a w'.store)
    (hclock : u'.clock = w'.clock) (hwc : w'.floor = w.floor ∧ w'.seen = w.seen)
    (huc : u'.floor = u.floor ∧ u'.seen = u.seen)
    (hjournal : u'.journal = w'.journal.filter (concerns a)) : ∃ ψ, Reflects a ψ w' u' := by
  have hwh : w'.history = w.history ++ [w'.store] := by
    simp only [World.history, hw]
  have hwn : w'.now = w.now + 1 := by
    simp [World.now, hw]
  have hun : u.now ≤ u'.now := by
    rcases hu with rfl | hu
    · exact le_rfl
    · simp [World.now, hu]
  have hold : ∀ {i : Nat} {st : Store}, u.history[i]? = some st → u'.history[i]? = some st := by
    intro i st hi
    rcases hu with rfl | hu
    · exact hi
    · obtain ⟨hlt, -⟩ := List.getElem?_eq_some_iff.mp hi
      rw [World.history, hu, show u.past ++ [u.store] = u.history from rfl,
        List.getElem?_append_left hlt]
      exact hi
  refine ⟨fun i => if i ≤ w.now then φ i else u'.now, hstore, ?_, ?_, ?_, ?_, hclock, ?_, ?_,
    hjournal⟩
  · intro i j hij
    simp only
    split <;> split
    · exact h.mono hij
    · exact (h.le i).trans hun
    · omega
    · exact le_rfl
  · intro i
    split
    · exact (h.le i).trans hun
    · exact le_rfl
  · simp [hwn]
  · intro i st hi
    rw [hwh, List.getElem?_append, World.length_history] at hi
    split at hi
    · rename_i hlt
      have hle : i ≤ w.now := by omega
      simp only [if_pos hle]
      exact hold (h.version i st hi)
    · rename_i hge
      have hle : ¬i ≤ w.now := by omega
      obtain rfl := List.mem_singleton.mp (List.mem_of_getElem? hi)
      simp only [if_neg hle]
      rw [World.history_now, hstore]
  · rw [hwc.1, huc.1]
    refine h.floor.mono fun i => ?_
    split
    · exact le_rfl
    · exact (h.le i).trans hun
  · rw [hwc.2, huc.2]
    refine h.seen.mono fun i => ?_
    split
    · exact le_rfl
    · exact (h.le i).trans hun

/-- The Redkey's part has one more version, too. -/
theorem Reflects.commit (h : Reflects a φ w u) (hstore : st' = partOf a st) {hs hs' : List Happening}
    (hj : hs' = hs.filter (concerns a)) : ∃ ψ, Reflects a ψ (w.commit st hs) (u.commit st' hs') := by
  refine h.extend rfl (.inr rfl) hstore h.clock ⟨rfl, rfl⟩ ⟨rfl, rfl⟩ ?_
  rw [World.journal_commit, World.journal_commit, List.filter_append, hj, h.journal]

/-- What is written is about other Redkeys. -/
theorem Reflects.unseen (h : Reflects a φ w u) (hpast : w'.past = w.past ++ [w.store])
    (hstore : partOf a w'.store = partOf a w.store) (hclock : w'.clock = w.clock)
    (hc : w'.floor = w.floor ∧ w'.seen = w.seen) {hs : List Happening}
    (hj : w'.journal = hs ++ w.journal) (hn : hs.filter (concerns a) = []) :
    ∃ ψ, Reflects a ψ w' u := by
  refine h.extend hpast (.inl rfl) (h.store.trans hstore.symm) (h.clock.trans hclock.symm) hc
    ⟨rfl, rfl⟩ ?_
  rw [hj, List.filter_append, hn, h.journal]
  rfl

theorem Reflects.same (h : Reflects a φ w u) (hstore : w'.store = w.store) (hpast : w'.past = w.past)
    (hj : w'.journal = w.journal) (hclock : w'.clock = w.clock)
    (hc : w'.floor = w.floor ∧ w'.seen = w.seen) : Reflects a φ w' u where
  store := hstore ▸ h.store
  mono := h.mono
  le := h.le
  now := by rw [World.now, hpast]; exact h.now
  version := by rw [World.history, hstore, hpast]; exact h.version
  clock := h.clock.trans hclock.symm
  floor := hc.1 ▸ h.floor
  seen := hc.2 ▸ h.seen
  journal := hj ▸ h.journal

theorem Reflects.enter (h : Reflects a φ w u) : Reflects a φ (enter w) (enter u) :=
  ⟨h.store, h.mono, h.le, h.now, h.version, h.clock, h.seen, h.seen, h.journal⟩

/-! ### Its own calls -/

/-- A read sees the same, and the reader is then as far as it was. -/
theorem Reflects.saw (h : Reflects a φ w u) (hstore : w'.store = w.store ∧ u'.store = u.store)
    (hpast : w'.past = w.past ∧ u'.past = u.past) (hclock : w'.clock = w.clock ∧ u'.clock = u.clock)
    (hj : w'.journal = w.journal ∧ u'.journal = u.journal)
    (hf : w'.floor = w.floor ∧ u'.floor = u.floor) (hseen : Behind φ u'.seen w'.seen) :
    Reflects a φ w' u' where
  store := by rw [hstore.1, hstore.2]; exact h.store
  mono := h.mono
  le := by rw [World.now, hpast.2]; exact h.le
  now := by rw [World.now, World.now, hpast.1, hpast.2]; exact h.now
  version := by
    rw [World.history, World.history, hstore.1, hstore.2, hpast.1, hpast.2]
    exact h.version
  clock := by rw [hclock.1, hclock.2]; exact h.clock
  floor := by rw [hf.1, hf.2]; exact h.floor
  seen := hseen
  journal := by rw [hj.1, hj.2]; exact h.journal

theorem Behind.sawRedkey (h : Behind φ u.seen w.seen) (hφ : Monotone φ) (i : Nat)
    (rk rk' : Option Redkey) : Behind φ (u.sawRedkey (φ i) rk').seen (w.sawRedkey i rk).seen :=
  ⟨(max_le_max h.redkey le_rfl).trans_eq (hφ.map_max ..).symm, h.config, h.robin⟩

theorem Behind.sawConfigs (h : Behind φ u.seen w.seen) (hφ : Monotone φ) (i : Nat)
    (items : List RedkeyConfig) :
    Behind φ (u.sawConfigs (φ i) items).seen (w.sawConfigs i items).seen :=
  ⟨h.redkey, (max_le_max h.config le_rfl).trans_eq (hφ.map_max ..).symm, h.robin⟩

theorem Behind.sawRobin (h : Behind φ u.seen w.seen) (hφ : Monotone φ) (k : Kind) (i : Nat) :
    Behind φ (u.sawRobin k (φ i)).seen (w.sawRobin k i).seen := by
  refine ⟨h.redkey, h.config, fun k' => ?_⟩
  simp only [World.sawRobin]
  by_cases hk : k' = k
  · subst hk
    rw [Function.update_self, Function.update_self, hφ.map_max]
    exact max_le_max (h.robin k') le_rfl
  · rw [Function.update_of_ne hk, Function.update_of_ne hk]
    exact h.robin k'

theorem Reflects.getRedkey {o : Outcome} {r : Except ApiError (Reply (.getRedkey a))}
    (h : Reflects a φ w u) (hans : answer (.getRedkey a) o w = some (r, w')) :
    ∃ u', answer (.getRedkey a) (through φ o) u = some (r, u') ∧ Reflects a φ w' u' := by
  cases o with
  | refused =>
    cases hans
    exact ⟨u, rfl, h⟩
  | lost => cases hans
  | _ =>
    simp only [answer, Option.map_eq_some_iff] at hans
    obtain ⟨⟨i, st⟩, hv, he⟩ := hans
    cases he
    have hrk : (partOf a st).redkeys a = st.redkeys a := if_pos rfl
    refine ⟨u.sawRedkey (φ i) (st.redkeys a), ?_, h.saw ⟨rfl, rfl⟩ ⟨rfl, rfl⟩ ⟨rfl, rfl⟩ ⟨rfl, rfl⟩
      ⟨rfl, rfl⟩ (h.seen.sawRedkey h.mono i _ _)⟩
    rw [answer_getRedkey_of_view (h.view h.floor.redkey hv), hrk]
    rfl

theorem Reflects.listConfigs {o : Outcome}
    {r : Except ApiError (Reply (.listConfigs a.namespace_ a.name))} (h : Reflects a φ w u)
    (hans : answer (.listConfigs a.namespace_ a.name) o w = some (r, w')) :
    ∃ u', answer (.listConfigs a.namespace_ a.name) (through φ o) u = some (r, u') ∧
      Reflects a φ w' u' := by
  have hlist (st : Store) : (partOf a st).configsOf clusterLabel a.namespace_ a.name =
      st.configsOf clusterLabel a.namespace_ a.name := by
    simp only [Store.configsOf, partOf, List.filter_filter]
    refine List.filter_congr fun c _ => ?_
    simp only [isOf, Bool.and_self]
  cases o with
  | refused =>
    cases hans
    exact ⟨u, rfl, h⟩
  | lost => cases hans
  | _ =>
    simp only [answer, Option.bind_eq_some_iff] at hans
    obtain ⟨⟨i, st⟩, hv, he⟩ := hans
    obtain ⟨items, hi, he⟩ := Option.map_eq_some_iff.mp he
    cases he
    refine ⟨u.sawConfigs (φ i) items, ?_, h.saw ⟨rfl, rfl⟩ ⟨rfl, rfl⟩ ⟨rfl, rfl⟩ ⟨rfl, rfl⟩
      ⟨rfl, rfl⟩ (h.seen.sawConfigs h.mono i items)⟩
    refine answer_listConfigs_of_view (h.view h.floor.config hv) ?_
    rw [hlist, arrange_through]
    exact hi

theorem Reflects.get {k : Kind} {o : Outcome} {r : Except ApiError (Reply (.get k (robinKeyOf a)))}
    (h : Reflects a φ w u) (hans : answer (.get k (robinKeyOf a)) o w = some (r, w')) :
    ∃ u', answer (.get k (robinKeyOf a)) (through φ o) u = some (r, u') ∧ Reflects a φ w' u' := by
  cases o with
  | refused =>
    cases hans
    exact ⟨u, rfl, h⟩
  | lost => cases hans
  | _ =>
    simp only [answer, Option.map_eq_some_iff] at hans
    obtain ⟨⟨i, st⟩, hv, he⟩ := hans
    cases he
    have hobj : (partOf a st).robin k (robinKeyOf a) = st.robin k (robinKeyOf a) := if_pos rfl
    refine ⟨u.sawRobin k (φ i), ?_, h.saw ⟨rfl, rfl⟩ ⟨rfl, rfl⟩ ⟨rfl, rfl⟩ ⟨rfl, rfl⟩
      ⟨rfl, rfl⟩ (h.seen.sawRobin h.mono k i)⟩
    rw [answer_get_of_view (h.view (h.floor.robin k) hv), hobj]
    rfl

/-- An arriving write has the same result and the same effect. -/
theorem Reflects.perform {x : Write} (h : Reflects a φ w u) (hmade : OperatorMade w.store)
    (hx : Own a (.write x)) :
    (perform x u).1 = (perform x w).1 ∧ ∃ ψ, Reflects a ψ (perform x w).2 (perform x u).2 := by
  have happly := apply_partOf hmade hx
  rw [← h.store] at happly
  unfold Kube.perform
  cases hst : w.store.apply x with
  | error e =>
    rw [hst] at happly
    rw [show u.store.apply x = .error e from happly]
    exact ⟨rfl, φ, h⟩
  | ok st =>
    rw [hst] at happly
    rw [show u.store.apply x = .ok (partOf a st) from happly]
    refine ⟨rfl, h.commit rfl ?_⟩
    rw [h.store]
    exact happenings_partOf hmade hx

theorem Reflects.write {x : Write} {o : Outcome} {r : Except ApiError (Reply (.write x))}
    (h : Reflects a φ w u) (hmade : OperatorMade w.store) (hx : Own a (.write x))
    (hans : answer (.write x) o w = some (r, w')) :
    ∃ u' ψ, answer (.write x) (through φ o) u = some (r, u') ∧ Reflects a ψ w' u' := by
  obtain ⟨hr, ψ, hm⟩ := h.perform hmade hx
  cases o with
  | ok =>
    have he : Kube.perform x w = (r, w') := Option.some.inj hans
    rw [he] at hr hm
    refine ⟨(Kube.perform x u).2, ψ, ?_, hm⟩
    exact congrArg some (Prod.ext hr rfl)
  | lost =>
    cases hans
    exact ⟨_, ψ, rfl, hm⟩
  | refused =>
    cases hans
    exact ⟨u, φ, rfl, h⟩
  | stale i order => cases hans

theorem Reflects.answer {c : Call} {o : Outcome} {r : Except ApiError (Reply c)}
    (h : Reflects a φ w u) (hmade : OperatorMade w.store) (hown : Own a c)
    (hans : answer c o w = some (r, w')) :
    ∃ u' ψ, Kube.answer c (through φ o) u = some (r, u') ∧ Reflects a ψ w' u' := by
  cases c with
  | getRedkey key =>
    obtain rfl : key = a := hown
    obtain ⟨u', hu, hm⟩ := h.getRedkey hans
    exact ⟨u', φ, hu, hm⟩
  | listConfigs ns cluster =>
    obtain ⟨rfl, rfl⟩ := hown
    obtain ⟨u', hu, hm⟩ := h.listConfigs hans
    exact ⟨u', φ, hu, hm⟩
  | get k key =>
    obtain rfl : key = robinKeyOf a := hown
    obtain ⟨u', hu, hm⟩ := h.get hans
    exact ⟨u', φ, hu, hm⟩
  | write x => exact h.write hmade hown hans
  | now =>
    cases o <;> cases hans
    refine ⟨{ u with clock := u.clock + 1 }, φ, ?_, ?_⟩
    · rw [← h.clock]
      rfl
    · exact ⟨h.store, h.mono, h.le, h.now, h.version, congrArg (· + 1) h.clock, h.floor, h.seen,
        h.journal⟩
  | count n =>
    cases o <;> cases hans
    exact ⟨_, φ, rfl, h.saw ⟨rfl, rfl⟩ ⟨rfl, rfl⟩ ⟨rfl, rfl⟩ ⟨rfl, rfl⟩ ⟨rfl, rfl⟩ h.seen⟩
  | recordMetrics cluster active =>
    cases o <;> cases hans
    exact ⟨u, φ, rfl, h⟩
  | deleteMetrics key =>
    cases o <;> cases hans
    exact ⟨u, φ, rfl, h⟩

/-! ### The environment -/

/-- What users, Robins and the garbage collector do is not seen, or it is done to
the Redkey alone. -/
theorem Reflects.env {e : Ev} (h : Reflects a φ w u) (hmade : OperatorMade w.store)
    (hw : env e w = some w') :
    (∃ ψ, Reflects a ψ w' u) ∨ ∃ u' ψ, Kube.env e u = some u' ∧ Reflects a ψ w' u' := by
  cases e with
  | update key spec =>
    obtain ⟨rk, hrk, hg, rfl⟩ := env_update hw
    have hkey : (rk.withSpec spec).key = key := hmade.keyed key rk hrk
    by_cases hk : key = a
    · subst hk
      have hu : u.store.redkeys key = some rk := by
        rw [h.store, ← hrk]
        exact if_pos rfl
      refine .inr ⟨u.commit (u.store.setRedkey (rk.withSpec spec)) [], ?_⟩
      have hset : (partOf key w.store).setRedkey (rk.withSpec spec) =
          partOf key (w.store.setRedkey (rk.withSpec spec)) := (partOf_setRedkey hkey).symm
      have hnil : ([] : List Happening) = [].filter (concerns key) := rfl
      obtain ⟨ψ, hm⟩ := h.commit hset hnil
      refine ⟨ψ, Option.bind_eq_some_iff.mpr ⟨rk, hu, if_pos hg⟩, ?_⟩
      rw [h.store]
      exact hm
    · have hne : (rk.withSpec spec).key ≠ a := fun he => hk (hkey.symm.trans he)
      have hj : (w.commit (w.store.setRedkey (rk.withSpec spec)) []).journal = [] ++ w.journal := rfl
      exact .inl (h.unseen rfl (partOf_setRedkey_of_ne hne) rfl ⟨rfl, rfl⟩ hj rfl)
  | robin key s =>
    obtain ⟨c, hc, rfl⟩ := env_robin hw
    have hpart := config_partOf_of_config (a := a) hmade hc
    rw [← h.store] at hpart
    by_cases hof : isOf a c = true
    · rw [if_pos hof] at hpart
      obtain ⟨ψ, hm⟩ := h.commit (partOf_setConfigStatus key s).symm (concerns_moves hof s).symm
      refine .inr ⟨u.commit (u.store.setConfigStatus key s) (moves c s), ψ,
        Option.map_eq_some_iff.mpr ⟨c, hpart, rfl⟩, ?_⟩
      rw [h.store]
      exact hm
    · rw [if_neg hof, h.store] at hpart
      refine .inl (h.unseen rfl ?_ rfl ⟨rfl, rfl⟩ rfl (concerns_moves_of_not hof s))
      exact (partOf_setConfigStatus key s).trans (setConfigStatus_of_absent hpart s)
  | collect key =>
    obtain ⟨c, hc, hpar, rfl⟩ := env_collect hw
    have hpart := config_partOf_of_config (a := a) hmade hc
    rw [← h.store] at hpart
    by_cases hof : isOf a c = true
    · rw [if_pos hof] at hpart
      have hj : [Happening.collected c] = [Happening.collected c].filter (concerns a) := by
        simp [concerns, hof]
      obtain ⟨ψ, hm⟩ := h.commit (partOf_removeConfig key).symm hj
      refine .inr ⟨u.commit (u.store.removeConfig key) [.collected c], ψ, ?_, ?_⟩
      · refine Option.bind_eq_some_iff.mpr ⟨c, hpart, if_neg ?_⟩
        rw [h.store, parent_partOf hof]
        cases hp : parent w.store c with
        | none => simp
        | some rk => simpa using hpar rk hp
      · rw [h.store]
        exact hm
    · rw [if_neg hof, h.store] at hpart
      refine .inl (h.unseen rfl ?_ rfl ⟨rfl, rfl⟩ rfl (by simpa [concerns] using hof))
      exact (partOf_removeConfig key).trans (removeConfig_of_absent hpart)

end Reflects

/-! ## One Redkey of many -/

section Fleet
variable {f f' f₀ : Shared} {u : World}

/-- Every version of the store is the operator's work. -/
def FleetMade (f : Shared) : Prop := ∀ st ∈ f.past ++ [f.store], OperatorMade st

theorem FleetMade.store (h : FleetMade f) : OperatorMade f.store := h _ (by simp)

theorem fleet_keeps : Hub.Keeps fleet FleetMade Own Sound where
  env {e f f'} h hw := by
    have hm : HistoryMade (SharedBy.worldOf f ⟨"", ""⟩) := h
    have hw' := fleet_env hw ⟨"", ""⟩
    exact hm.extend (env_extends hw') ((FleetMade.store h).env hw')
  enter h := h
  answer {key c o r f f'} hown h hans := by
    obtain ⟨w, hw, rfl⟩ := fleet_answer hans
    have hm : HistoryMade (SharedBy.worldOf f key) := h
    obtain ⟨hm', hs, -⟩ := projects_server key hown hm hw
    exact ⟨hm', hs⟩

theorem Reflects.leave {w : World} {φ : Nat → Nat} (h : Reflects a φ w u) :
    Reflects a φ ((f.leave a w).worldOf a) u := by
  rw [worldOf_leave]
  exact h

/-- A Reconcile of another Redkey starts. -/
theorem Reflects.enter_of_ne {φ : Nat → Nat} (h : Reflects a φ (f.worldOf a) u) (hb : b ≠ a) :
    Reflects a φ ((f.leave b (Kube.enter (f.worldOf b))).worldOf a) u := by
  rw [worldOf_leave_of_ne hb]
  exact h.same rfl rfl rfl rfl ⟨rfl, rfl⟩

/-- A call of a Reconcile of another Redkey is not seen. -/
theorem Reflects.answer_of_ne {w : World} {φ : Nat → Nat} {c : Call} {o : Outcome}
    {r : Except ApiError (Reply c)} (h : Reflects a φ (f.worldOf a) u) (hmade : OperatorMade f.store)
    (hb : b ≠ a) (hown : Own b c) (hans : Kube.answer c o (f.worldOf b) = some (r, w)) :
    ∃ ψ, Reflects a ψ ((f.leave b w).worldOf a) u := by
  rw [worldOf_leave_of_ne hb]
  obtain ⟨hs, hp, hj⟩ | ⟨x, st, rfl, hst, rfl⟩ := answer_shared hans
  · exact ⟨φ, h.same hs hp hj rfl ⟨rfl, rfl⟩⟩
  · exact h.unseen rfl (partOf_apply_of_ne hmade hb hown hst) rfl ⟨rfl, rfl⟩ rfl
      (happenings_of_ne hmade hb hown)

theorem robin_of_fleet {key : NamespacedName} {s : RedkeyConfigStatus} (h : OperatorMade st)
    (ok : (st.config key).all (fun c => robinMay (siblings st c) c s.configPhase) = true) :
    ((partOf a st).config key).all
      (fun c => robinMay (partOf a st).configs c s.configPhase) = true := by
  cases hc : st.config key with
  | none =>
    have hpart : (partOf a st).config key = none := by
      refine Store.config_eq_none.mpr fun c hm => ?_
      exact Store.config_eq_none.mp hc c (List.mem_of_mem_filter hm)
    rw [hpart]
    rfl
  | some c =>
    rw [config_partOf_of_config h hc]
    rw [hc] at ok
    split
    · rename_i hof
      have hsib : siblings st c = (partOf a st).configs :=
        List.filter_congr fun d _ => sameCluster_eq hof
      rw [← hsib]
      exact ok
    · rfl

/-- What the terms `T` of the fleet come to for one Redkey alone. -/
structure Narrows (T : Hub.Terms fleet) (U : Terms server) (a : NamespacedName) : Prop where
  env : ∀ {e : Ev} {f : Shared} {u : World}, OperatorMade f.store → u.store = partOf a f.store →
    T.env e f = true → U.env e u = true
  call : ∀ {c : Call} {o : Outcome} {f : Shared} {u : World} {φ : Nat → Nat},
    Reflects a φ (f.worldOf a) u → T.call a c o f = true → U.call c (through φ o) u = true

theorem narrows_fleetRobins (a : NamespacedName) : Narrows fleetRobins robinProtocol a where
  env {e f u} h hu ok := by
    cases e with
    | robin key s =>
      show (u.store.config key).all (fun c => robinMay u.store.configs c s.configPhase) = true
      rw [hu]
      exact robin_of_fleet h ok
    | _ => rfl
  call _ _ := rfl

theorem narrows_fleetProtocol (a : NamespacedName) : Narrows fleetProtocol protocol a where
  env h hu ok := Bool.and_eq_true_iff.mpr ⟨(narrows_fleetRobins a).env h hu ok, rfl⟩
  call {c o f u φ} h ok := by
    refine Bool.and_eq_true_iff.mpr ⟨rfl, ?_⟩
    cases c with
    | listConfigs ns cluster =>
      cases o with
      | stale i order =>
        obtain rfl : i = (f.worldOf a).now := beq_iff_eq.mp ok
        exact beq_iff_eq.mpr h.now
      | _ => rfl
    | _ => cases o <;> rfl

/-- Each Redkey of the fleet, seen alone. -/
theorem fleet_alone {T : Hub.Terms fleet} {U : Terms server} (hTU : Narrows T U a) :
    Hub.Alone T U FleetMade Own a
      fun (f : Shared) (u : World) => ∃ φ, Reflects a φ (f.worldOf a) u where
  env {e f f' u} hI hR ok hw := by
    obtain ⟨φ, hm⟩ := hR
    have hmade : OperatorMade (SharedBy.store f) := FleetMade.store hI
    obtain hψ | ⟨u', ψ, hu', hψ⟩ := hm.env hmade (fleet_env hw a)
    · exact .inl hψ
    · exact .inr ⟨e, u', hTU.env hmade hm.store ok, hu', ψ, hψ⟩
  enter hR := by
    obtain ⟨φ, hm⟩ := hR
    exact ⟨φ, hm.enter.leave⟩
  enter_of_ne hj hR := by
    obtain ⟨φ, hm⟩ := hR
    exact ⟨φ, hm.enter_of_ne hj⟩
  answer {c o r f f' u} hown hI hR ok hans := by
    obtain ⟨φ, hm⟩ := hR
    obtain ⟨w, hw, rfl⟩ := fleet_answer hans
    obtain ⟨u', ψ, hu', hψ⟩ := hm.answer (FleetMade.store hI) hown hw
    exact ⟨through φ o, u', hTU.call hm ok, hu', ψ, hψ.leave⟩
  answer_of_ne hj hown hI hR hans := by
    obtain ⟨φ, hm⟩ := hR
    obtain ⟨w, hw, rfl⟩ := fleet_answer hans
    exact hm.answer_of_ne (FleetMade.store hI) hj hown hw

/-- Redkeys that have just been created, with no configs yet. -/
structure FreshFleet (f : Shared) : Prop where
  keyed : ∀ key rk, f.store.redkeys key = some rk → rk.key = key
  new : ∀ key rk, f.store.redkeys key = some rk → rk.generation = 1 ∧ rk.status = {}
  configs : f.store.configs = []
  past : f.past = []
  journal : f.journal = []
  sessions : ∀ key, f.sessions key = {}

/-- The world of one of them alone. -/
def aloneWorld (a : NamespacedName) (f : Shared) : World where
  store := partOf a f.store

theorem FreshFleet.made (h : FreshFleet f) : FleetMade f := by
  intro st hst
  rw [h.past, List.nil_append, List.mem_singleton] at hst
  subst hst
  refine ⟨h.keyed, fun c hc => ?_⟩
  rw [h.configs] at hc
  cases hc

theorem FreshFleet.reflects (h : FreshFleet f) (a : NamespacedName) :
    Reflects a (fun _ => 0) (f.worldOf a) (aloneWorld a f) := by
  refine ⟨rfl, monotone_const, fun _ => le_rfl, rfl, fun i st hi => ?_, ?_, ?_, ?_, ?_⟩
  · rw [World.history, SharedBy.worldOf, h.past, List.nil_append] at hi
    obtain rfl := List.mem_singleton.mp (List.mem_of_getElem? hi)
    rfl
  · simp [aloneWorld, SharedBy.worldOf, h.sessions a]
  · exact ⟨le_rfl, le_rfl, fun _ => le_rfl⟩
  · exact ⟨le_rfl, le_rfl, fun _ => le_rfl⟩
  · simp [aloneWorld, SharedBy.worldOf, h.journal]

theorem FreshFleet.fresh (h : FreshFleet f) {rk : Redkey} (hrk : f.store.redkeys a = some rk) :
    Fresh a (aloneWorld a f) := by
  have hpart : (partOf a f.store).redkeys a = some rk := (if_pos rfl).trans hrk
  refine ⟨⟨fun key rk' hrk' => ?_, ⟨rk, hpart, h.new a rk hrk⟩, rfl, rfl, rfl, rfl⟩, ?_⟩
  · simp only [aloneWorld, partOf] at hrk'
    split at hrk'
    · exact h.keyed key rk' hrk'
    · cases hrk'
  · simp [aloneWorld, partOf, h.configs]

theorem exists_alone {T : Hub.Terms fleet} {U : Terms server} {r : RedkeyReconciler}
    {s : Hub.Pool fleet Result} (hTU : Narrows T U a) (hf : FreshFleet f₀)
    (h : Hub.Reaches T (reconcile r) (.idle f₀) s) :
    ∃ (u : World) (φ : Nat → Nat),
      Reaches U (reconcile r a) ⟨aloneWorld a f₀, none⟩ ⟨u, s.running a⟩ ∧
        Reflects a φ (SharedBy.worldOf s.world a) u := by
  obtain ⟨u, hu, φ, hm⟩ := (fleet_alone hTU).reaches fleet_keeps (fun k => stays_reconcile r k)
    hf.made ⟨_, hf.reflects a⟩ h
  exact ⟨u, φ, hu, hm⟩

/-- Any number of Redkeys, reconciled side by side with users, Robins, failures,
crashes and stale reads in between: seen from one of them, the run is a run of
that Redkey alone. The single run has the same Reconcile at the same point, and
its store and its journal are the Redkey's part of those of the fleet. -/
theorem fleet_runs_each_alone {r : RedkeyReconciler} {s : Hub.Pool fleet Result}
    (hf : FreshFleet f₀) (h : Hub.Reaches fleetRobins (reconcile r) (.idle f₀) s)
    (a : NamespacedName) :
    ∃ u : World, Reaches robinProtocol (reconcile r a) ⟨aloneWorld a f₀, none⟩ ⟨u, s.running a⟩ ∧
      u.store = partOf a s.world.store ∧ u.journal = s.world.journal.filter (concerns a) := by
  obtain ⟨u, φ, hu, hm⟩ := exists_alone (narrows_fleetRobins a) hf h
  exact ⟨u, hu, hm.store, hm.journal⟩

/-- Two Redkeys of which one has the name of a config of the other. -/
def twoFleet : Shared where
  store := twoRedkeys

theorem freshFleet_twoFleet : FreshFleet twoFleet where
  keyed := operatorMade_twoRedkeys.keyed
  new key rk h := by
    simp only [twoFleet, twoRedkeys] at h
    split at h
    · cases h
      exact ⟨rfl, rfl⟩
    · split at h
      · cases h
        exact ⟨rfl, rfl⟩
      · cases h
  configs := rfl
  past := rfl
  journal := rfl
  sessions _ := rfl

/-- Their Reconciles call the API server in turn. -/
def inTurn (n : Nat) : List (Hub.Event fleet) :=
  [.start ⟨"ns", "rk"⟩, .start ⟨"ns", "rk-1"⟩] ++
    (List.replicate n [.call ⟨"ns", "rk"⟩ Outcome.ok, .call ⟨"ns", "rk-1"⟩ Outcome.ok]).flatten

set_option maxRecDepth 100000 in
theorem fleet_runs_each_alone_sample :
    ∃ s : Hub.Pool fleet Result, Hub.Reaches fleetRobins (reconcile ⟨60⟩) (.idle twoFleet) s ∧
      (SharedBy.store s.world).configs.map (fun c => c.key.name) = ["rk-1", "rk-1-1"] ∧
      ∃ u : World, Reaches robinProtocol (reconcile ⟨60⟩ ⟨"ns", "rk-1"⟩)
          ⟨aloneWorld ⟨"ns", "rk-1"⟩ twoFleet, none⟩ ⟨u, s.running ⟨"ns", "rk-1"⟩⟩ ∧
        u.store = partOf ⟨"ns", "rk-1"⟩ s.world.store ∧
        u.journal = s.world.journal.filter (concerns ⟨"ns", "rk-1"⟩) := by
  obtain ⟨s, hs, hnames⟩ := Hub.exists_reaches_of_play (T := fleetRobins) (inTurn 18)
    (fun s : Hub.Pool fleet Result =>
      (SharedBy.store s.world).configs.map (fun c => c.key.name) == ["rk-1", "rk-1-1"])
    (by decide +kernel : (Hub.play fleetRobins (reconcile ⟨60⟩) (inTurn 18)
      (.idle twoFleet)).any _ = true)
  exact ⟨s, hs, beq_iff_eq.mp hnames, fleet_runs_each_alone freshFleet_twoFleet hs _⟩

/-- So what holds of one Redkey in all its runs holds of every Redkey of a fleet.
With current lists, once the current generation with primaries is observed, the
highest config of the cluster is the snapshot of its spec and Robin has not set it
aside. -/
theorem fleet_observes_newest {r : RedkeyReconciler} {s : Hub.Pool fleet Result} {rk rk₀ : Redkey}
    (hf : FreshFleet f₀) (h : Hub.Reaches fleetProtocol (reconcile r) (.idle f₀) s)
    (h₀ : f₀.store.redkeys a = some rk₀) (hrk : s.world.store.redkeys a = some rk)
    (hpos : 0 < rk.spec.primaries) (ho : rk.status.observedGeneration = rk.generation) :
    ∃ c ∈ s.world.store.configs, isOf a c = true ∧
      (∀ d ∈ s.world.store.configs, isOf a d = true → d.sequence ≤ c.sequence) ∧
      c.metadata.annotations.get generationAnnotation = some (formatInt rk.generation) ∧
      c.spec = configSpec rk.spec c.sequence ∧ c.phase ≠ .superseded := by
  obtain ⟨u, φ, hu, hm⟩ := exists_alone (narrows_fleetProtocol a) hf h
  have hfresh := hf.fresh h₀
  have hrk' : u.store.redkeys a = some rk := by
    rw [hm.store]
    exact (if_pos rfl).trans hrk
  obtain ⟨p, hr⟩ := reconcile_runs hu
  obtain ⟨c, hlast, hmade, hph⟩ :=
    hr.newest hfresh rk hrk' hpos (hr.observedCreated hfresh hrk' hpos ho)
  have hle := (hr.orderly hfresh).1.ascending.le_getLast hlast
  have hmem := List.mem_of_getLast? hlast
  have hconfigs : u.store.configs = s.world.store.configs.filter (isOf a) := by
    rw [hm.store]
    rfl
  rw [hconfigs] at hle hmem
  obtain ⟨hmem, hof⟩ := List.mem_filter.mp hmem
  exact ⟨c, hmem, hof, fun d hd hdof => hle d (List.mem_filter.mpr ⟨hd, hdof⟩), hmade.annotation,
    hmade.2, hph⟩

set_option maxRecDepth 100000 in
theorem fleet_observes_newest_sample :
    ∃ (s : Hub.Pool fleet Result) (rk : Redkey),
      Hub.Reaches fleetProtocol (reconcile ⟨60⟩) (.idle twoFleet) s ∧
      (SharedBy.store s.world).redkeys sampleKey = some rk ∧
      ∃ c ∈ (SharedBy.store s.world).configs, isOf sampleKey c = true ∧
        (∀ d ∈ (SharedBy.store s.world).configs, isOf sampleKey d = true →
          d.sequence ≤ c.sequence) ∧
        c.metadata.annotations.get generationAnnotation = some (formatInt rk.generation) ∧
        c.spec = configSpec rk.spec c.sequence ∧ c.phase ≠ .superseded := by
  obtain ⟨s, hs, htest⟩ := Hub.exists_reaches_of_play (T := fleetProtocol) (inTurn 18)
    (fun s : Hub.Pool fleet Result => observedRunning (SharedBy.worldOf s.world sampleKey))
    (by decide +kernel : (Hub.play fleetProtocol (reconcile ⟨60⟩) (inTurn 18)
      (.idle twoFleet)).any _ = true)
  obtain ⟨rk, hrk, hpos, ho⟩ := of_observedRunning htest
  exact ⟨s, rk, hs, hrk, fleet_observes_newest freshFleet_twoFleet hs rfl hrk hpos ho⟩

end Fleet

end RedkeyOperator.Protocol
