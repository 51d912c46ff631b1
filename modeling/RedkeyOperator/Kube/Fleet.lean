import RedkeyOperator.Interleave.Pool
import RedkeyOperator.Kube.Frame

/-! # One API server for many Redkeys

Reconciles that run at the same time share the store, its history and the
counters. What the Reconciles of one key have read, and so how old a version they
may still be given, is kept for each key in a session, and so is the clock: times
are counted for each session by itself, and no status compares them with those of
another. The manager runs Reconciles of different Redkeys at the same time, never
two of one Redkey: the keys of a `fleet` are the names of the Redkeys. -/
namespace RedkeyOperator.Kube
open RedkeyOperator.Api RedkeyOperator.Interleave

/-- What the server keeps for the Reconciles of one key. -/
structure Session where
  clock : Time := 0
  floor : Cursor := {}
  seen : Cursor := {}
  snapshot : Option Redkey := none
  consulted : Option (List RedkeyConfig) := none
  listed : Option (List RedkeyConfig) := none

structure SharedBy (K : Type) where
  store : Store
  past : List Store := []
  counters : Counter → Nat := fun _ => 0
  journal : List Happening := []
  sessions : K → Session := fun _ => {}

abbrev Shared := SharedBy NamespacedName

namespace SharedBy
variable {K : Type}

/-- The world as the Reconciles of `key` see it. -/
def worldOf (f : SharedBy K) (key : K) : World where
  store := f.store
  past := f.past
  clock := (f.sessions key).clock
  floor := (f.sessions key).floor
  seen := (f.sessions key).seen
  counters := f.counters
  snapshot := (f.sessions key).snapshot
  consulted := (f.sessions key).consulted
  listed := (f.sessions key).listed
  journal := f.journal

def history (f : SharedBy K) : List Store := f.past ++ [f.store]

/-- A Reconcile of `key` leaves the world as `w`. -/
def leave [DecidableEq K] (f : SharedBy K) (key : K) (w : World) : SharedBy K where
  store := w.store
  past := w.past
  counters := w.counters
  journal := w.journal
  sessions := Function.update f.sessions key
    { clock := w.clock
      floor := w.floor
      seen := w.seen
      snapshot := w.snapshot
      consulted := w.consulted
      listed := w.listed }

/-- Users, Robins and the garbage collector leave the world as `w`. -/
def disturb (f : SharedBy K) (w : World) : SharedBy K :=
  { f with store := w.store, past := w.past, journal := w.journal }

end SharedBy

/-- The environment has no session; it acts on what is shared. -/
def sharedBy (K : Type) [DecidableEq K] : Hub api K where
  World := SharedBy K
  Ev := Ev
  Outcome := Outcome
  env e f := (env e { store := f.store, past := f.past, journal := f.journal }).map f.disturb
  answer key c o f := (answer c o (f.worldOf key)).map fun a => (a.1, f.leave key a.2)
  enter key f := f.leave key (enter (f.worldOf key))

abbrev fleet : Hub api NamespacedName := sharedBy NamespacedName

/-! ## The worlds of the keys -/

section
variable {K : Type} [DecidableEq K] {f f' : SharedBy K} {key other : K} {w : World}

theorem worldOf_leave (f : SharedBy K) (key : K) (w : World) :
    (f.leave key w).worldOf key = w := by
  simp [SharedBy.worldOf, SharedBy.leave]

theorem worldOf_leave_of_ne (h : other ≠ key) :
    (f.leave other w).worldOf key = { f.worldOf key with
      store := w.store, past := w.past, counters := w.counters, journal := w.journal } := by
  simp [SharedBy.worldOf, SharedBy.leave, Function.update_of_ne h.symm]

theorem fleet_answer {c : Call} {o : Outcome} {r : Except ApiError (Reply c)}
    (h : (sharedBy K).answer key c o f = some (r, f')) :
    ∃ w, answer c o (f.worldOf key) = some (r, w) ∧ f' = f.leave key w := by
  obtain ⟨⟨r', w⟩, hw, he⟩ := Option.map_eq_some_iff.mp h
  cases he
  exact ⟨w, hw, rfl⟩

/-- The environment does the same in the world of every key. -/
theorem fleet_env {e : Ev} (h : (sharedBy K).env e f = some f') (key : K) :
    env e (f.worldOf key) = some (f'.worldOf key) := by
  obtain ⟨w, hw, rfl⟩ := Option.map_eq_some_iff.mp h
  cases e with
  | update key' spec =>
    obtain ⟨rk, hrk, hg, rfl⟩ := env_update hw
    refine Option.bind_eq_some_iff.mpr ⟨rk, hrk, ?_⟩
    rw [if_pos hg]
    rfl
  | robin key' s =>
    obtain ⟨c, hc, rfl⟩ := env_robin hw
    exact Option.map_eq_some_iff.mpr ⟨c, hc, rfl⟩
  | collect key' =>
    obtain ⟨c, hc, h⟩ := Option.bind_eq_some_iff.mp hw
    refine Option.bind_eq_some_iff.mpr ⟨c, hc, ?_⟩
    split at h
    · cases h
    · rename_i hp
      cases h
      exact if_neg hp

end

/-! ## Calls -/

section
variable {key : NamespacedName} {w : World} {o : Outcome} {i : Nat} {st : Store}

theorem answer_getRedkey_of_view (hv : o.view w.floor.redkey w = some (i, st)) :
    answer (.getRedkey key) o w =
      some (found (st.redkeys key), w.sawRedkey i (st.redkeys key)) := by
  cases o with
  | ok | stale =>
    simp only [answer, hv, Option.map_some]
    rfl
  | refused | lost => cases hv

theorem answer_listConfigs_of_view {ns cluster : String} {items : List RedkeyConfig}
    (hv : o.view w.floor.config w = some (i, st))
    (hi : o.arrange (st.configsOf clusterLabel ns cluster) = some items) :
    answer (.listConfigs ns cluster) o w = some (.ok items, w.sawConfigs i items) := by
  cases o with
  | ok | stale =>
    simp only [answer, hv, hi, Option.bind_some]
    rfl
  | refused | lost => cases hv

theorem answer_get_of_view {k : Kind} (hv : o.view (w.floor.robin k) w = some (i, st)) :
    answer (.get k key) o w = some (found (st.robin k key), w.sawRobin k i) := by
  cases o with
  | ok | stale =>
    simp only [answer, hv, Option.map_some]
    rfl
  | refused | lost => cases hv

end

/-- Nothing but an accepted write changes what is shared. -/
theorem answer_shared {c : Call} {o : Outcome} {r : Except ApiError (Reply c)} {w w' : World}
    (h : answer c o w = some (r, w')) :
    (w'.store = w.store ∧ w'.past = w.past ∧ w'.journal = w.journal) ∨
      ∃ a st, c = .write a ∧ w.store.apply a = .ok st ∧
        w' = w.commit st (happenings a w.store st) := by
  cases c with
  | getRedkey key =>
    obtain ⟨-, rfl⟩ | ⟨i, st, -, -, rfl⟩ := answer_getRedkey h <;> exact .inl ⟨rfl, rfl, rfl⟩
  | listConfigs ns cluster =>
    obtain ⟨-, rfl⟩ | ⟨i, st, items, -, -, -, rfl⟩ := answer_listConfigs h <;>
      exact .inl ⟨rfl, rfl, rfl⟩
  | get k key =>
    obtain ⟨-, rfl⟩ | ⟨i, st, -, -, rfl⟩ := answer_get h <;> exact .inl ⟨rfl, rfl, rfl⟩
  | write a =>
    obtain ⟨rfl, -⟩ | ⟨st, hst, rfl, -⟩ := answer_write h
    · exact .inl ⟨rfl, rfl, rfl⟩
    · exact .inr ⟨a, st, rfl, hst, rfl⟩
  | now | count _ | recordMetrics _ _ | deleteMetrics _ =>
    cases o <;> cases h
    exact .inl ⟨rfl, rfl, rfl⟩

/-- What depends on the store and its history only is kept by all keys if it is
kept in the world of each. `G` are the versions there will have been. -/
theorem keepsUpTo_sharedBy {K : Type} [DecidableEq K] {G : Store → Prop} {J : World → Prop}
    {own : K → Call → Prop} {sound : K → (c : Call) → Except ApiError (Reply c) → Prop}
    (congr : ∀ {w w' : World}, w'.store = w.store → w'.past = w.past → J w → J w')
    (env : ∀ {e : Ev} {w w' : World}, (∀ st ∈ w'.history, G st) → J w → env e w = some w' → J w')
    (answer : ∀ {k : K} {c : Call} {o : Outcome} {r : Except ApiError (Reply c)} {w w' : World},
      (∀ st ∈ w'.history, G st) → own k c → J w → answer c o w = some (r, w') →
        J w' ∧ sound k c r) :
    Hub.KeepsUpTo (sharedBy K) (fun f => ∀ st ∈ f.history, G st) (fun f => ∀ k, J (f.worldOf k))
      own sound where
  before_env {e w w'} he hok := by
    intro st hst
    obtain ⟨u, hu, rfl⟩ := Option.map_eq_some_iff.mp he
    exact hok st ((env_extends hu).mono hst)
  before_enter hok := hok
  before_answer {k c o r w w'} hans hok := by
    intro st hst
    obtain ⟨u, hu, rfl⟩ := fleet_answer hans
    exact hok st ((answer_extends hu).mono hst)
  env hok hJ he k := env hok (hJ k) (fleet_env he k)
  enter {k f} hJ j := congr (w := f.worldOf j) rfl rfl (hJ j)
  answer {k c o r w w'} hok hc hJ hans := by
    obtain ⟨u, hu, rfl⟩ := fleet_answer hans
    obtain ⟨hu', hr⟩ := answer (k := k) hok hc (hJ k) hu
    exact ⟨fun j => congr (w := u) rfl rfl hu', hr⟩

end RedkeyOperator.Kube
