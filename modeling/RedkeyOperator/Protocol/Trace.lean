import RedkeyOperator.Protocol.Refinement

/-! # Runs of the machine

What every step of a run does to the world (`Effect`), and where the local data
of a point come from (`Sourced`): the Redkey and the configs a Reconcile works
with are those of versions of the store it has read. -/
namespace RedkeyOperator.Protocol
open RedkeyOperator.Api RedkeyOperator.Kube RedkeyOperator.Interleave RedkeyOperator.Controller

variable {T : Terms server} {req : NamespacedName} {w₀ w w' : World} {p q : Point}

abbrev Runs (T : Terms server) (req : NamespacedName) (w₀ : World) (p : Point) (w : World) : Prop :=
  (machine req).Run (M := server) T w₀ p w

theorem Runs.weaken {U : Terms server} (h : Runs T req w₀ p w) (hTU : T.Implies U) :
    Runs U req w₀ p w := h.mono hTU

/-! ## From the operator to the machine -/

variable {r : RedkeyReconciler} {s : State server Result}

theorem reconcile_runs (h : Reaches T (reconcile r req) ⟨w₀, none⟩ s) :
    ∃ p, Runs T req w₀ p s.world := by
  obtain ⟨p, hp, -⟩ := (along_reconcile r req).reaches rfl h
  exact ⟨p, hp⟩

/-- The call that waits for its answer. -/
def pendingCall (s : State server Result) : Option Call :=
  match s.running with
  | some (.call c _) => some c
  | _ => none

theorem reconcile_pending (h : Reaches T (reconcile r req) ⟨w₀, none⟩ s) {c : Call}
    (hc : pendingCall s = some c) : ∃ p, Runs T req w₀ p s.world ∧ Issues req p c := by
  unfold pendingCall at hc
  split at hc
  · rename_i c' k hrun
    cases hc
    obtain ⟨p, hp, ha⟩ := (along_reconcile r req).pending rfl h hrun
    obtain ⟨q, hq⟩ := ha (.error .unavailable)
    exact ⟨p, hp, hq.issues⟩
  · cases hc

theorem reconcile_returned (h : Reaches T (reconcile r req) ⟨w₀, none⟩ s) {a : Result}
    (ha : s.running = some (.ret a)) : ∃ p, Runs T req w₀ p s.world ∧ Returned p :=
  (along_reconcile r req).returned rfl h ha

def hasReturned (s : State server Result) : Bool :=
  match s.running with
  | some (.ret _) => true
  | _ => false

theorem of_hasReturned (h : hasReturned s = true) : ∃ a, s.running = some (.ret a) := by
  unfold hasReturned at h
  split at h
  · exact ⟨_, by assumption⟩
  · cases h

/-! ## Effects -/

/-- What an answered call of a Reconcile at `p` can have done. -/
inductive Effect (T : Terms server) (req : NamespacedName) (p : Point) (w : World) : World → Prop where
  | quiet {w' : World} (h : Quiet w w') : Effect T req p w w'
  | sawRedkey {key : NamespacedName} {o : Outcome} {i : Nat} {st : Store}
      (hi : Issues req p (.getRedkey key)) (ok : T.call (.getRedkey key) o w = true)
      (hv : o.view w.floor.redkey w = some (i, st)) :
      Effect T req p w (w.sawRedkey i (st.redkeys key))
  | sawConfigs {ns cluster : String} {o : Outcome} {i : Nat} {st : Store}
      {items : List RedkeyConfig} (hi : Issues req p (.listConfigs ns cluster))
      (ok : T.call (.listConfigs ns cluster) o w = true)
      (hv : o.view w.floor.config w = some (i, st))
      (hp : items.Perm (st.configsOf clusterLabel ns cluster)) :
      Effect T req p w (w.sawConfigs i items)
  | updated {rk cur : Redkey} {o : Outcome} (hi : Issues req p (.write (.updateStatus rk)))
      (ok : T.call (.write (.updateStatus rk)) o w = true)
      (hc : w.store.redkeys rk.key = some cur) (hv : rk.resourceVersion = cur.resourceVersion) :
      Effect T req p w (w.commit (w.store.setRedkey (cur.withStatus rk.status)) [])
  | created {c : RedkeyConfig} {o : Outcome} (hi : Issues req p (.write (.createConfig c)))
      (ok : T.call (.write (.createConfig c)) o w = true) (hn : w.store.config c.key = none) :
      Effect T req p w (w.commit { w.store with configs := w.store.configs ++ [c] } [.created c])
  | deleted {key : NamespacedName} {c : RedkeyConfig} {o : Outcome}
      (hi : Issues req p (.write (.deleteConfig key)))
      (ok : T.call (.write (.deleteConfig key)) o w = true) (hc : w.store.config key = some c) :
      Effect T req p w (w.commit (w.store.removeConfig key)
        [.deleted c (!(w.store.removeConfig key).configs.any (sameCluster c))])

theorem Issues.effect {c : Call} {o : Outcome} {res : Except ApiError (Reply c)}
    (hi : Issues req p c) (ok : T.call c o w = true) (h : answer c o w = some (res, w')) :
    Effect T req p w w' := by
  cases c with
  | getRedkey key =>
    obtain ⟨-, rfl⟩ | ⟨i, st, hv, -, rfl⟩ := answer_getRedkey h
    · exact .quiet (.refl _)
    · exact .sawRedkey hi ok hv
  | listConfigs ns cluster =>
    obtain ⟨-, rfl⟩ | ⟨i, st, items, hv, hp, -, rfl⟩ := answer_listConfigs h
    · exact .quiet (.refl _)
    · exact .sawConfigs hi ok hv hp
  | write a =>
    obtain ⟨rfl, -⟩ | ⟨st, hst, hw, -⟩ := answer_write h
    · exact .quiet (.refl _)
    · cases a with
      | updateStatus rk =>
        obtain ⟨cur, hc, hv, rfl⟩ := apply_updateStatus hst
        exact hw ▸ .updated hi ok hc hv
      | createConfig c =>
        obtain ⟨hn, rfl⟩ := apply_createConfig hst
        exact hw ▸ .created hi ok hn
      | deleteConfig key =>
        obtain ⟨c, hc, rfl⟩ := apply_deleteConfig hst
        simp only [happenings, hc] at hw
        exact hw ▸ .deleted hi ok hc
      | create k o => exact .quiet (quiet_answer (.inl (by trivial)) h)
      | patch k o => exact .quiet (quiet_answer (.inl (by trivial)) h)
      | delete k key => exact .quiet (quiet_answer (.inl (by trivial)) h)
  | get k key => exact .quiet (quiet_answer (c := .get k key) (.inr trivial) h)
  | now => exact .quiet (quiet_answer (c := .now) (.inr trivial) h)
  | count k => exact .quiet (quiet_answer (c := .count k) (.inr trivial) h)
  | recordMetrics rk a => exact .quiet (quiet_answer (c := .recordMetrics rk a) (.inr trivial) h)
  | deleteMetrics key => exact .quiet (quiet_answer (c := .deleteMetrics key) (.inr trivial) h)

/-- What one event does to the world. -/
theorem reconcile_step (h : Reaches T (reconcile r req) ⟨w₀, none⟩ s) {e : Event server}
    {t : State server Result} (ok : T.allow e s = true)
    (hs : step (reconcile r req) e s = some t) :
    ∃ p, Runs T req w₀ p s.world ∧
      ((∃ ev, e = .env ev ∧ T.env ev s.world = true ∧ env ev s.world = some t.world) ∨
        t.world = s.world ∨ t.world = enter s.world ∨ Effect T req p s.world t.world) := by
  obtain ⟨p, hp⟩ := reconcile_runs h
  cases e with
  | env ev =>
    obtain ⟨v, hv, rfl⟩ := Option.map_eq_some_iff.mp hs
    exact ⟨p, hp, .inl ⟨ev, rfl, ok, hv⟩⟩
  | start =>
    obtain ⟨w, running⟩ := s
    cases running with
    | none => cases hs; exact ⟨p, hp, .inr (.inr (.inl rfl))⟩
    | some m => cases hs
  | call o =>
    obtain ⟨w, running⟩ := s
    cases running with
    | none => cases hs
    | some m =>
      cases m with
      | ret a => cases hs
      | fail e => cases hs
      | call c k =>
        obtain ⟨⟨res, v⟩, hv, rfl⟩ := Option.map_eq_some_iff.mp hs
        obtain ⟨q, hq, hi⟩ := reconcile_pending h (c := c) rfl
        exact ⟨q, hq, .inr (.inr (.inr (hi.effect ok hv)))⟩
  | stop =>
    obtain ⟨w, running⟩ := s
    cases running with
    | none => cases hs
    | some m => cases hs; exact ⟨p, hp, .inr (.inl rfl)⟩

/-- Induction on runs, in the words of the machine and the server. -/
theorem Runs.induct {motive : (p : Point) → (w : World) → Runs T req w₀ p w → Prop}
    (init : motive .idle w₀ .init)
    (env : ∀ p e w w' (h : Runs T req w₀ p w) (ok : T.env e w = true) (hw : env e w = some w'),
      motive p w h → motive p w' (.env e h ok hw))
    (enter : ∀ p w (h : Runs T req w₀ p w), motive p w h → motive .start (enter w) (.enter h))
    (silent : ∀ p q w (h : Runs T req w₀ p w) (hq : Silent p q),
      motive p w h → motive q w (.silent h hq))
    (call : ∀ p q w w' c o r (h : Runs T req w₀ p w) (hq : Next req p c r q)
      (ok : T.call c o w = true) (hw : answer c o w = some (r, w')),
      motive p w h → motive q w' (.call c o r h hq ok hw))
    {p : Point} {w : World} (h : Runs T req w₀ p w) : motive p w h :=
  @Automaton.Run.rec api server (machine req) T w₀ motive init
    (fun e h ok hw ih => env _ e _ _ h ok hw ih) (fun h ih => enter _ _ h ih)
    (fun h hq ih => silent _ _ _ h hq ih)
    (fun c o r h hq ok hw ih => call _ _ _ _ c o r h hq ok hw ih) p w h

/-- Invariants of the world alone: one case for each event of the environment
and one for each effect. -/
theorem Runs.world {G : World → Prop} (h : Runs T req w₀ p w) (init : G w₀)
    (env : ∀ p e w w', Runs T req w₀ p w → G w → T.env e w = true → env e w = some w' → G w')
    (enter : ∀ w, G w → G (enter w))
    (effect : ∀ p w w', Runs T req w₀ p w → G w → Effect T req p w w' → G w') : G w := by
  induction h using Runs.induct with
  | init => exact init
  | env p e w w' h ok hw ih => exact env p e w w' h ih ok hw
  | enter p w h ih => exact enter w ih
  | silent p q w h hq ih => exact ih
  | call p q w w' c o r h hq ok hw ih => exact effect p w w' h ih (hq.issues.effect ok hw)

/-! ## Cursors -/

/-- The informers are within the history of the store. -/
structure Cursors (w : World) : Prop where
  redkey : w.floor.redkey ≤ w.seen.redkey
  seenRedkey : w.seen.redkey ≤ w.now
  config : w.floor.config ≤ w.seen.config
  seenConfig : w.seen.config ≤ w.now

theorem Cursors.mono (h : Cursors w) (hf : w'.floor = w.floor)
    (hr : w'.seen.redkey = w.seen.redkey) (hc : w'.seen.config = w.seen.config)
    (hn : w.now ≤ w'.now) : Cursors w' where
  redkey := by rw [hf, hr]; exact h.redkey
  seenRedkey := by rw [hr]; exact h.seenRedkey.trans hn
  config := by rw [hf, hc]; exact h.config
  seenConfig := by rw [hc]; exact h.seenConfig.trans hn

theorem Cursors.commit (h : Cursors w) (st : Store) (hs : List Happening) :
    Cursors (w.commit st hs) :=
  h.mono rfl rfl rfl (by simp [World.now, World.commit])

theorem Runs.cursors (h : Runs T req w₀ p w) (h₀ : Cursors w₀) : Cursors w := by
  refine h.world h₀ ?_ ?_ ?_
  · intro p e w w' _ hc _ he
    cases e with
    | update key spec => obtain ⟨rk, -, -, rfl⟩ := env_update he; exact hc.commit _ _
    | robin key s => obtain ⟨c, -, rfl⟩ := env_robin he; exact hc.commit _ _
    | collect key => obtain ⟨c, -, -, rfl⟩ := env_collect he; exact hc.commit _ _
  · intro w hc
    exact ⟨le_rfl, hc.seenRedkey, le_rfl, hc.seenConfig⟩
  · intro p w w' _ hc he
    cases he with
    | quiet hq => exact hc.mono hq.floor hq.seenRedkey hq.seenConfig hq.now_le
    | sawRedkey hi ok hv =>
      have hn := view_le_now (hc.redkey.trans hc.seenRedkey) hv
      exact ⟨hc.redkey.trans (le_max_left _ _), max_le hc.seenRedkey hn, hc.config, hc.seenConfig⟩
    | sawConfigs hi ok hv hp =>
      have hn := view_le_now (hc.config.trans hc.seenConfig) hv
      exact ⟨hc.redkey, hc.seenRedkey, hc.config.trans (le_max_left _ _), max_le hc.seenConfig hn⟩
    | updated => exact hc.commit _ _
    | created => exact hc.commit _ _
    | deleted => exact hc.commit _ _

/-- Until a Reconcile reads, its floor is all that was seen before it. -/
def Unread : Point → World → Prop
  | .start, w => w.floor.redkey = w.seen.redkey ∧ w.floor.config = w.seen.config
  | .got _, w => w.floor.config = w.seen.config
  | _, _ => True

theorem Unread.keep (h : Unread p w) (hf : w'.floor = w.floor)
    (hr : w'.seen.redkey = w.seen.redkey) (hc : w'.seen.config = w.seen.config) : Unread p w' := by
  cases p with
  | start => exact ⟨by rw [hf, hr]; exact h.1, by rw [hf, hc]; exact h.2⟩
  | got rk => show _ = _; rw [hf, hc]; exact h
  | _ => trivial

theorem Runs.unread (h : Runs T req w₀ p w) : Unread p w := by
  induction h using Runs.induct with
  | init => trivial
  | env p e w w' h ok hw ih =>
    cases e with
    | update key spec => obtain ⟨rk, -, -, rfl⟩ := env_update hw; exact ih.keep rfl rfl rfl
    | robin key s => obtain ⟨c, -, rfl⟩ := env_robin hw; exact ih.keep rfl rfl rfl
    | collect key => obtain ⟨c, -, -, rfl⟩ := env_collect hw; exact ih.keep rfl rfl rfl
  | enter p w h ih => exact ⟨rfl, rfl⟩
  | silent p q w h hq ih => cases hq <;> trivial
  | call p q w w' c o res h hq ok hw ih =>
    cases hq with
    | stay _ hc =>
      have hq := quiet_answer hc hw
      exact ih.keep hq.floor hq.seenRedkey hq.seenConfig
    | get =>
      obtain ⟨i, st, -, -, rfl⟩ := answer_getRedkey_ok hw
      exact ih.2
    | _ => trivial

/-! ## What a Reconcile has read -/

/-- `w'` is later in the same Reconcile, with nothing listed in between. -/
structure Later (w w' : World) : Prop where
  history : ∃ t, w'.history = w.history ++ t
  floor : w'.floor = w.floor
  seenRedkey : w.seen.redkey ≤ w'.seen.redkey
  seenConfig : w.seen.config ≤ w'.seen.config
  snapshot : w'.snapshot = w.snapshot
  consulted : w'.consulted = w.consulted
  listed : w'.listed = w.listed

theorem Later.version (h : Later w w') {i : Nat} {st : Store} (hi : w.history[i]? = some st) :
    w'.history[i]? = some st := by
  obtain ⟨t, ht⟩ := h.history
  rw [ht, List.getElem?_append_left (List.getElem?_eq_some_iff.mp hi).1, hi]

theorem Later.mem (h : Later w w') {st : Store} (hs : st ∈ w.history) : st ∈ w'.history := by
  obtain ⟨t, ht⟩ := h.history
  rw [ht]
  exact List.mem_append_left _ hs

theorem later_commit (w : World) (st : Store) (hs : List Happening) : Later w (w.commit st hs) :=
  ⟨⟨[st], rfl⟩, rfl, le_rfl, le_rfl, rfl, rfl, rfl⟩

theorem later_quiet (h : Quiet w w') : Later w w' := by
  refine ⟨?_, h.floor, h.seenRedkey.ge, h.seenConfig.ge, h.snapshot, h.consulted,
    h.listed⟩
  obtain h | h := h.history
  · exact ⟨[], by simp [h]⟩
  · exact ⟨_, h⟩

theorem later_sawRedkey {rk : Redkey} (h : w.snapshot = some rk) (i : Nat) (rk' : Option Redkey) :
    Later w (w.sawRedkey i rk') :=
  ⟨⟨[], by simp [World.sawRedkey, World.history]⟩, rfl, le_max_left _ _, le_rfl,
    by simp [World.sawRedkey, h], rfl, rfl⟩

theorem later_env {e : Ev} (h : env e w = some w') : Later w w' := by
  cases e with
  | update key spec => obtain ⟨rk, -, -, rfl⟩ := env_update h; exact later_commit _ _ _
  | robin key s => obtain ⟨c, -, rfl⟩ := env_robin h; exact later_commit _ _ _
  | collect key => obtain ⟨c, -, -, rfl⟩ := env_collect h; exact later_commit _ _ _

theorem later_write {a : Write} {o : Outcome} {res : Except ApiError Unit}
    (h : answer (.write a) o w = some (res, w')) : Later w w' := by
  obtain ⟨rfl, -⟩ | ⟨st, -, rfl, -⟩ := answer_write h
  · exact later_quiet (.refl _)
  · exact later_commit _ _ _

/-- `rk` is the Redkey this Reconcile has read first. -/
structure ReadRedkey (req : NamespacedName) (rk : Redkey) (w : World) : Prop where
  snapshot : w.snapshot = some rk
  version : ∃ i st, w.floor.redkey ≤ i ∧ i ≤ w.seen.redkey ∧ w.history[i]? = some st ∧
    st.redkeys req = some rk

/-- `items` is the list of configs this Reconcile has read last. -/
structure Listing (rk : Redkey) (items : List RedkeyConfig) (w : World) : Prop where
  listed : w.listed = some items
  version : ∃ i st, w.floor.config ≤ i ∧ i ≤ w.seen.config ∧ w.history[i]? = some st ∧
    items.Perm (st.configsOf clusterLabel rk.key.namespace_ rk.key.name)

/-- The list as `listConfigs` returns it. -/
def ReadConfigs (rk : Redkey) (configs : List RedkeyConfig) (w : World) : Prop :=
  ∃ items, Listing rk items w ∧ configs = sortBySequence items

/-- The list handed to `aggregateStatus`: pruned on the running path, as read
while a scale-down is awaited. -/
def Handed (rk : Redkey) (configs : List RedkeyConfig) (w : World) : Prop :=
  ∃ all, ReadConfigs rk all w ∧
    (rk.spec.primaries ≠ 0 ∧ configs = all.drop (lastAppliedIndex all) ∨
      Awaits rk all ∧ configs = all)

/-- The local data of a point are what the Reconcile has read. -/
def Sourced (req : NamespacedName) : Point → World → Prop
  | .idle, _ => True
  | .start, w | .absent, w => w.snapshot = none
  | .got rk, w | .created rk, w | .settled rk, w => ReadRedkey req rk w
  | .listed rk configs, w => ReadRedkey req rk w ∧ ReadConfigs rk configs w
  | .pruning rk older kept, w => ReadRedkey req rk w ∧ rk.spec.primaries ≠ 0 ∧
      ∃ all gone, ReadConfigs rk all w ∧ all.take (lastAppliedIndex all) = gone ++ older ∧
        kept = all.drop (lastAppliedIndex all)
  | .aggregating rk configs, w => ReadRedkey req rk w ∧ Handed rk configs w
  | .refetched rk configs latest, w => ReadRedkey req rk w ∧ Handed rk configs w ∧
      ∃ st ∈ w.history, st.redkeys rk.key = some latest
  | .deleting rk items, w => ReadRedkey req rk w ∧ rk.spec.primaries = 0 ∧
      ∃ all gone, Listing rk all w ∧ all = gone ++ items

theorem Sourced.readRedkey {rk : Redkey} (h : Sourced req p w) (hp : p.cluster = some rk) :
    ReadRedkey req rk w := by
  cases p <;> cases hp <;> first | exact h | exact h.1

theorem ReadRedkey.later {rk : Redkey} (h : ReadRedkey req rk w) (hl : Later w w') :
    ReadRedkey req rk w' := by
  obtain ⟨hs, i, st, hf, hi, hst, hrk⟩ := h
  exact ⟨hl.snapshot.trans hs, i, st, hl.floor ▸ hf, hi.trans hl.seenRedkey, hl.version hst, hrk⟩

theorem Listing.later {rk : Redkey} {items : List RedkeyConfig} (h : Listing rk items w)
    (hl : Later w w') : Listing rk items w' := by
  obtain ⟨hs, i, st, hf, hi, hst, hp⟩ := h
  exact ⟨hl.listed.trans hs, i, st, hl.floor ▸ hf, hi.trans hl.seenConfig, hl.version hst, hp⟩

theorem ReadConfigs.later {rk : Redkey} {configs : List RedkeyConfig} (h : ReadConfigs rk configs w)
    (hl : Later w w') : ReadConfigs rk configs w' := by
  obtain ⟨items, hi, rfl⟩ := h
  exact ⟨items, hi.later hl, rfl⟩

theorem Handed.later {rk : Redkey} {configs : List RedkeyConfig} (h : Handed rk configs w)
    (hl : Later w w') : Handed rk configs w' := by
  obtain ⟨all, ha, hc⟩ := h
  exact ⟨all, ha.later hl, hc⟩

theorem Sourced.later (h : Sourced req p w) (hl : Later w w') : Sourced req p w' := by
  cases p with
  | idle => trivial
  | start => exact hl.snapshot.trans h
  | absent => exact hl.snapshot.trans h
  | got rk => exact ReadRedkey.later h hl
  | created rk => exact ReadRedkey.later h hl
  | settled rk => exact ReadRedkey.later h hl
  | listed rk configs => exact ⟨h.1.later hl, h.2.later hl⟩
  | pruning rk older kept =>
    obtain ⟨hr, hp, all, gone, ha, hg⟩ := h
    exact ⟨hr.later hl, hp, all, gone, ha.later hl, hg⟩
  | aggregating rk configs => exact ⟨h.1.later hl, h.2.later hl⟩
  | refetched rk configs latest =>
    obtain ⟨hr, hh, st, hst, hlt⟩ := h
    exact ⟨hr.later hl, hh.later hl, st, hl.mem hst, hlt⟩
  | deleting rk items =>
    obtain ⟨hr, hp, all, gone, ha, hg⟩ := h
    exact ⟨hr.later hl, hp, all, gone, ha.later hl, hg⟩

/-- A list just read, by a Reconcile that had read `rk`. -/
theorem listing_saw {rk : Redkey} {o : Outcome} {i : Nat} {st : Store} {items : List RedkeyConfig}
    (hc : Cursors w) (hv : o.view w.floor.config w = some (i, st))
    (hp : items.Perm (st.configsOf clusterLabel rk.key.namespace_ rk.key.name)) :
    Listing rk items (w.sawConfigs i items) := by
  obtain ⟨hf, hst⟩ := view_spec (hc.config.trans hc.seenConfig) hv
  exact ⟨rfl, i, st, hf, le_max_right _ _, hst, hp⟩

theorem ReadRedkey.sawConfigs {rk : Redkey} (h : ReadRedkey req rk w) (i : Nat)
    (items : List RedkeyConfig) : ReadRedkey req rk (w.sawConfigs i items) := ⟨h.1, h.2⟩

theorem Sourced.silent {p q : Point} (h : Sourced req p w) (hq : Silent p q) : Sourced req q w := by
  cases hq with
  | quit => trivial
  | reuse hp hc => exact ⟨h.1, hp, _, [], h.2, rfl, rfl⟩
  | begun => exact h
  | pruned =>
    obtain ⟨hr, hp, all, gone, ha, -, hk⟩ := h
    exact ⟨hr, all, ha, .inl ⟨hp, hk⟩⟩
  | await ha => exact ⟨h.1, _, h.2, .inr ⟨ha, rfl⟩⟩
  | again => exact ⟨h.1, h.2.1⟩
  | skip => exact h.1
  | steady h0 =>
    obtain ⟨hr, items, hi, hs⟩ := h
    have hn : items = [] := by
      have := (List.perm_insertionSort (fun a b : RedkeyConfig => a.sequence ≤ b.sequence) items)
      rw [← sortBySequence, ← hs] at this
      exact this.nil_eq.symm
    exact ⟨hr, h0, items, [], hi, by simp [hn]⟩

theorem Sourced.next {c : Call} {o : Outcome} {res : Except ApiError (Reply c)}
    (hc : Cursors w) (h : Sourced req p w) (hq : Next req p c res q)
    (hw : answer c o w = some (res, w')) : Sourced req q w' := by
  cases hq with
  | stay hi hcall => exact h.later (later_quiet (quiet_answer hcall hw))
  | failed => trivial
  | missing =>
    obtain ⟨hr, -⟩ | ⟨i, st, -, hr, rfl⟩ := answer_getRedkey hw
    · cases hr
    · cases hst : st.redkeys req with
      | none => exact Option.or_eq_none_iff.mpr ⟨h, rfl⟩
      | some rk => rw [hst] at hr; cases hr
  | get =>
    obtain ⟨i, st, hv, hrk, rfl⟩ := answer_getRedkey_ok hw
    obtain ⟨hf, hst⟩ := view_spec (hc.redkey.trans hc.seenRedkey) hv
    exact ⟨by simp [World.sawRedkey, show w.snapshot = none from h], i, st, hf, le_max_right _ _,
      hst, hrk⟩
  | list =>
    obtain ⟨i, st, hv, hp, rfl⟩ := answer_listConfigs_ok hw
    exact ⟨h.sawConfigs i _, _, listing_saw hc hv hp, rfl⟩
  | create => exact h.1.later (later_write hw)
  | relist hp =>
    obtain ⟨i, st, hv, hpm, rfl⟩ := answer_listConfigs_ok hw
    exact ⟨h.sawConfigs i _, hp, _, [], ⟨_, listing_saw hc hv hpm, rfl⟩, rfl, rfl⟩
  | prune =>
    obtain ⟨hr, hp, all, gone, ha, hg, hk⟩ := h.later (later_write hw)
    exact ⟨hr, hp, all, gone ++ [_], ha, by simpa using hg, hk⟩
  | refetch =>
    obtain ⟨i, st, hv, hlt, rfl⟩ := answer_getRedkey_ok hw
    have hl := later_sawRedkey h.1.snapshot i (some ‹_›)
    exact ⟨h.1.later hl, h.2.later hl, st,
      hl.mem (List.mem_of_getElem? (view_spec (hc.redkey.trans hc.seenRedkey) hv).2), hlt⟩
  | retryRead =>
    obtain ⟨-, rfl⟩ | ⟨i, st, hv, -, rfl⟩ := answer_getRedkey hw
    · exact h
    · exact h.later (later_sawRedkey h.1.snapshot i _)
  | update => exact h.1.later (later_write hw)
  | retryUpdate => exact ⟨h.1.later (later_write hw), h.2.1.later (later_write hw)⟩
  | relistAll hd =>
    obtain ⟨i, st, hv, hp, rfl⟩ := answer_listConfigs_ok hw
    exact ⟨h.1.sawConfigs i _, hd.1, _, [], listing_saw hc hv hp, rfl⟩
  | delete =>
    obtain ⟨hr, hp, all, gone, ha, hg⟩ := h.later (later_write hw)
    exact ⟨hr, hp, all, gone ++ [_], ha, by simpa using hg⟩
  | zero => exact h.1.later (later_write hw)

theorem Runs.sourced (h : Runs T req w₀ p w) (h₀ : Cursors w₀) : Sourced req p w := by
  induction h using Runs.induct with
  | init => trivial
  | env p e w w' h ok hw ih => exact ih.later (later_env hw)
  | enter p w h ih => rfl
  | silent p q w h hq ih => exact ih.silent hq
  | call p q w w' c o res h hq ok hw ih => exact ih.next (h.cursors h₀) hq hw

/-- Which list is the first one that a Reconcile reads. -/
def Consults : Point → World → Prop
  | .start, w | .got _, w => w.consulted = none
  | .listed _ configs, w => ∃ items, w.consulted = some items ∧ configs = sortBySequence items
  | _, _ => True

theorem Consults.keep (h : Consults p w) (hc : w'.consulted = w.consulted) : Consults p w' := by
  cases p with
  | start => exact hc.trans h
  | got rk => exact hc.trans h
  | listed rk configs => obtain ⟨items, hi, he⟩ := h; exact ⟨items, hc.trans hi, he⟩
  | _ => trivial

theorem Runs.consults (h : Runs T req w₀ p w) : Consults p w := by
  induction h using Runs.induct with
  | init => trivial
  | env p e w w' h ok hw ih => exact ih.keep (later_env hw).consulted
  | enter p w h ih => rfl
  | silent p q w h hq ih => cases hq <;> trivial
  | call p q w w' c o res h hq ok hw ih =>
    cases hq with
    | stay _ hc => exact ih.keep (quiet_answer hc hw).consulted
    | get => obtain ⟨i, st, -, -, rfl⟩ := answer_getRedkey_ok hw; exact ih
    | list =>
      obtain ⟨i, st, -, -, rfl⟩ := answer_listConfigs_ok hw
      exact ⟨_, by simp [World.sawConfigs, show w.consulted = none from ih], rfl⟩
    | _ => trivial

end RedkeyOperator.Protocol
