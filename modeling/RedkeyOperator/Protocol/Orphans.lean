import RedkeyOperator.Protocol.Phases
import RedkeyOperator.Protocol.Upkeep

/-! # No orphans

Robin looks after the Redis objects of a cluster and the operator after Robin's
own objects. The operator deletes the latter only when Robin has taken down the
former, and a cluster that is reported as scaled to zero should have neither. -/
namespace RedkeyOperator.Protocol
open RedkeyOperator.Api RedkeyOperator.Kube RedkeyOperator.Interleave RedkeyOperator.Controller

variable {T : Terms server} {req : NamespacedName} {w₀ w w' : World} {p q : Point} {u v : Upkeep}
variable {r : RedkeyReconciler} {s : State server Result}

/-! ## Runs of both machines -/

abbrev Tended (T : Terms server) (req : NamespacedName) (w₀ : World) (p : Point) (u : Upkeep)
    (w : World) : Prop :=
  ((machine req).prod (upkeep req)).Run (M := server) T w₀ (p, u) w

theorem Tended.runs (h : Tended T req w₀ p u w) : Runs T req w₀ p w := h.left

/-- Invariants of both machines. -/
theorem Tended.induct {G : Point → Upkeep → World → Prop}
    (init : G .idle .off w₀)
    (env : ∀ p u e w w', Tended T req w₀ p u w → G p u w → T.env e w = true →
      env e w = some w' → G p u w')
    (enter : ∀ p u w, G p u w → G .start .off (enter w))
    (silent : ∀ p q u w, Tended T req w₀ p u w → G p u w → Silent p q → G q u w)
    (cleared : ∀ p u v w, G p u w → UpkeepSilent u v → G p v w)
    (call : ∀ p q u v w w' c o res, Tended T req w₀ p u w → G p u w → Next req p c res q →
      UpkeepNext req u c res v → T.call c o w = true → answer c o w = some (res, w') → G q v w')
    (h : Tended T req w₀ p u w) : G p u w :=
  Automaton.Run.prod_induct (A := machine req) (B := upkeep req) (M := server) init env enter silent
    cleared call h

theorem tended_pending (h : Reaches T (reconcile r req) ⟨w₀, none⟩ s) {c : Call}
    (hc : pendingCall s = some c) :
    ∃ p u v, Tended T req w₀ p u s.world ∧ UpkeepNext req u c (.error .unavailable) v := by
  unfold pendingCall at hc
  split at hc
  · rename_i c' k hrun
    cases hc
    obtain ⟨⟨p, u⟩, hp, ha⟩ :=
      ((along_reconcile r req).prod (keeps_reconcile r req)).pending rfl h hrun
    obtain ⟨⟨q, v⟩, -, hv⟩ := ha (.error .unavailable)
    exact ⟨p, u, v, hp, hv⟩
  · cases hc

theorem tended_returned (h : Reaches T (reconcile r req) ⟨w₀, none⟩ s) {a : Result}
    (ha : s.running = some (.ret a)) : ∃ p u, Tended T req w₀ p u s.world := by
  obtain ⟨⟨p, u⟩, hp, -⟩ :=
    ((along_reconcile r req).prod (keeps_reconcile r req)).returned rfl h ha
  exact ⟨p, u, hp⟩

/-! ## Robin's objects -/

/-- Robin's RoleBinding, if there is one, refers to Robin's Role. -/
def BindsRobin (req : NamespacedName) (st : Store) : Prop :=
  ∀ rb : RoleBinding, st.robin .roleBinding (robinKeyOf req) = some rb →
    rb.roleRef = ⟨"rbac.authorization.k8s.io", "Role", req.name ++ "-robin"⟩

/-- What a call does to Robin's objects: some of those of the Redkey may be gone,
or one is stored while the Redkey is tended. -/
inductive Handled (u v : Upkeep) (c : Call) (st st' : Store) : Prop where
  | shrink (h : ∀ k key, st'.robin k key = st.robin k key ∨ st'.robin k key = none)
  | put {rk : Redkey} {k : Kind} {o : Obj k} (hu : u = .read rk) (hv : v = .read rk)
      (hc : (∃ o, c = .write (.create k o)) ∨ ∃ o, c = .write (.patch k o))
      (h : st' = st.setRobin k (robinKey rk) (some o))
      (href : ∀ rb : RoleBinding, (⟨k, o⟩ : Σ k, Obj k) = ⟨.roleBinding, rb⟩ →
        rb.roleRef = (desiredRoleBinding rk).roleRef ∨
          ∃ old : RoleBinding, st.robin .roleBinding (robinKey rk) = some old ∧
            rb.roleRef = old.roleRef)

theorem handled_of_eq {c : Call} {st st' : Store} (h : st'.robin = st.robin) : Handled u v c st st' :=
  .shrink fun k key => .inl (by rw [h])

theorem handled_delete {k : Kind} {key : NamespacedName} {o : Outcome} {res : Except ApiError Unit}
    {c : Call} (hw : answer (.write (.delete k key)) o w = some (res, w')) :
    Handled u v c w.store w'.store := by
  obtain ⟨rfl, -⟩ | ⟨st, hst, rfl, -⟩ := answer_write hw
  · exact handled_of_eq rfl
  · rw [apply_delete hst]
    refine .shrink fun k' key' => ?_
    by_cases h : k' ≠ k ∨ key' ≠ key
    · exact .inl (Store.robin_setRobin_of_ne _ _ h)
    · obtain ⟨rfl, rfl⟩ : k' = k ∧ key' = key := by simpa [not_or] using h
      exact .inr (Store.robin_setRobin_self _ _ _ _)

theorem UpkeepNext.handled {c : Call} {o : Outcome} {res : Except ApiError (Reply c)}
    (hq : UpkeepNext req u c res v) (hw : answer c o w = some (res, w')) :
    Handled u v c w.store w'.store := by
  have free : ¬ RobinWrite c → Handled u v c w.store w'.store := fun hc =>
    handled_of_eq (answer_robin_eq hc hw)
  cases hq with
  | pass _ h =>
    refine free fun hc => ?_
    cases c with
    | write a => cases a <;> first | exact h | exact hc
    | _ => exact hc
  | get => exact free id
  | missing => exact free id
  | mismatch => exact free id
  | list => exact free id
  | prune => exact free id
  | erase => exact free id
  | replace => exact handled_delete hw
  | delete => exact handled_delete hw
  | failed => exact handled_delete hw
  | tend h =>
    cases c with
    | write a =>
      cases a with
      | create k o =>
        obtain ⟨rfl, -⟩ | ⟨st, hst, rfl, -⟩ := answer_write hw
        · exact handled_of_eq rfl
        · obtain ⟨-, rfl⟩ := apply_create hst
          exact .put rfl rfl (.inl ⟨o, rfl⟩) (by rw [World.store_commit, h.1]) fun rb hrb =>
            .inl (h.2 rb hrb)
      | patch k o =>
        obtain ⟨rfl, -⟩ | ⟨st, hst, rfl, -⟩ := answer_write hw
        · exact handled_of_eq rfl
        · obtain ⟨stored, hs, rfl⟩ := apply_patch hst
          have hkey : o.metadata.key = robinKey _ := h
          rw [hkey] at hs
          refine .put rfl rfl (.inr ⟨o, rfl⟩) (by rw [World.store_commit, hkey]) fun rb hrb => ?_
          -- a patch leaves the RoleRef alone
          cases k with
          | roleBinding => cases hrb; exact .inr ⟨stored, hs, rfl⟩
          | _ => cases hrb
      | delete k key => exact absurd h id
      | _ => exact free id
    | _ => exact free id

/-! ## The machines together -/

structure Tending (req : NamespacedName) (p : Point) (u : Upkeep) (w : World) : Prop where
  off : u = .off → p.cluster = none
  start : p = .start → u = .off
  cluster : ∀ rk, u.cluster = some rk → w.snapshot = some rk ∧ rk.key = req
  got : ∀ rk, p = .got rk → u = .read rk
  /-- The RoleBinding is never replaced. -/
  matched : ∀ rk, u ≠ .mismatched rk
  binds : ∀ st ∈ w.history, BindsRobin req st

theorem snapshot_answer {c : Call} {o : Outcome} {res : Except ApiError (Reply c)} {rk : Redkey}
    (h : answer c o w = some (res, w')) (hs : w.snapshot = some rk) : w'.snapshot = some rk := by
  cases c with
  | getRedkey key =>
    obtain ⟨-, rfl⟩ | ⟨i, st, -, -, rfl⟩ := answer_getRedkey h
    · exact hs
    · simp [World.sawRedkey, hs]
  | listConfigs ns cluster =>
    obtain ⟨-, rfl⟩ | ⟨i, st, items, -, -, -, rfl⟩ := answer_listConfigs h <;> exact hs
  | write a => exact (later_write h).snapshot.trans hs
  | get k key => exact (quiet_answer (c := .get k key) (.inr trivial) h).snapshot.trans hs
  | now => exact (quiet_answer (c := .now) (.inr trivial) h).snapshot.trans hs
  | count k => exact (quiet_answer (c := .count k) (.inr trivial) h).snapshot.trans hs
  | recordMetrics rk a =>
    exact (quiet_answer (c := .recordMetrics rk a) (.inr trivial) h).snapshot.trans hs
  | deleteMetrics key =>
    exact (quiet_answer (c := .deleteMetrics key) (.inr trivial) h).snapshot.trans hs

theorem BindsRobin.handled {c : Call} {st st' : Store} (h : BindsRobin req st)
    (hu : ∀ rk, u.cluster = some rk → rk.key = req) (hh : Handled u v c st st') :
    BindsRobin req st' := by
  intro rb hrb
  cases hh with
  | shrink hs =>
    obtain he | he := hs .roleBinding (robinKeyOf req)
    · exact h rb (he ▸ hrb)
    · rw [he] at hrb; cases hrb
  | @put rk k o hu' hv hc he href =>
    have hkey : rk.key = req := hu rk (by rw [hu']; rfl)
    subst he
    by_cases hk : k = .roleBinding
    · subst hk
      rw [robinKey_eq hkey, Store.robin_setRobin_self] at hrb
      cases hrb
      obtain hr | ⟨old, hold, hr⟩ := href rb rfl
      · rw [hr, ← hkey]; rfl
      · rw [hr]
        exact h old (by rw [← robinKey_eq hkey]; exact hold)
    · rw [Store.robin_setRobin_of_ne _ _ (.inl (Ne.symm hk))] at hrb
      exact h rb hrb

theorem Next.to_start {c : Call} {res : Except ApiError (Reply c)} (h : Next req p c res .start) :
    p = .start ∧ (RobinWrite c ∨ Free c) := by
  cases h with
  | stay _ hc => exact ⟨rfl, hc⟩

theorem Next.to_got {c : Call} {res : Except ApiError (Reply c)} {rk : Redkey}
    (h : Next req p c res (.got rk)) :
    (p = .got rk ∧ (RobinWrite c ∨ Free c)) ∨
      (p = .start ∧ (⟨c, res⟩ : Σ c, Except ApiError (Reply c)) = ⟨.getRedkey req, .ok rk⟩) := by
  cases h with
  | stay _ hc => exact .inl ⟨rfl, hc⟩
  | get => exact .inr ⟨rfl, rfl⟩

/-- A RoleBinding that is read refers to Robin's Role. -/
theorem Tending.roleRef_eq (ih : Tending req p u w) {rk : Redkey} (hu : u.cluster = some rk)
    {o : Outcome} {rb : RoleBinding}
    (hw : answer (.get .roleBinding (robinKey rk)) o w = some (.ok rb, w')) :
    rb.roleRef = (desiredRoleBinding rk).roleRef := by
  obtain ⟨st, hst, hrb⟩ := answer_get_ok hw
  have hkey := (ih.cluster rk hu).2
  rw [robinKey_eq hkey] at hrb
  rw [ih.binds st hst rb hrb, ← hkey]
  rfl

theorem Tending.read_of_got (ih : Tending req p u w) {c : Call} {o : Outcome}
    {res : Except ApiError (Reply c)} {rk : Redkey} (hq : Next req p c res (.got rk))
    (hv : UpkeepNext req u c res v) (hw : answer c o w = some (res, w')) : v = .read rk := by
  obtain ⟨rfl, hc⟩ | ⟨rfl, he⟩ := hq.to_got
  · obtain rfl := ih.got rk rfl
    cases hv with
    | pass => rfl
    | tend => rfl
    | prune => obtain hc | hc := hc <;> cases hc
    | list => obtain hc | hc := hc <;> cases hc
    | mismatch hne => exact absurd (ih.roleRef_eq rfl hw) hne
  · obtain rfl := ih.start rfl
    cases he
    cases hv with
    | pass hu _ =>
      obtain hu | hu := hu
      · exact absurd rfl hu
      · cases hu
    | get => rfl

theorem Tending.next (hr : Runs T req w₀ p w) (hn : Newborn req w₀) (ih : Tending req p u w)
    {c : Call} {o : Outcome} {res : Except ApiError (Reply c)} (hq : Next req p c res q)
    (hv : UpkeepNext req u c res v) (ok : T.call c o w = true)
    (hw : answer c o w = some (res, w')) : Tending req q v w' := by
  have hr' : Runs T req w₀ q w' := .call c o res hr hq ok hw
  have hstart : q = .start → v = .off := by
    rintro rfl
    obtain ⟨rfl, hc⟩ := hq.to_start
    obtain rfl := ih.start rfl
    cases hv with
    | pass => rfl
    | get => obtain hc | hc := hc <;> cases hc
    | missing => obtain hc | hc := hc <;> cases hc
  have hgot : ∀ rk, q = .got rk → v = .read rk := by
    rintro rk rfl
    exact ih.read_of_got hq hv hw
  have hbinds : ∀ st ∈ w'.history, BindsRobin req st := by
    intro st hst
    obtain hst | rfl := (answer_extends hw).mem hst
    · exact ih.binds st hst
    · exact (ih.binds _ w.store_mem_history).handled (fun rk hrk => (ih.cluster rk hrk).2)
        (hv.handled hw)
  have keep : ∀ rk, u.cluster = some rk → w'.snapshot = some rk ∧ rk.key = req := fun rk hrk =>
    ⟨snapshot_answer hw (ih.cluster rk hrk).1, (ih.cluster rk hrk).2⟩
  cases hv with
  | pass hu h =>
    refine ⟨fun hoff => ?_, hstart, keep, hgot, ih.matched, hbinds⟩
    cases hqc : q.cluster with
    | none => rfl
    | some rk =>
      obtain hp | ⟨rfl, rfl⟩ := hq.cluster hqc
      · rw [← hp]; exact ih.off hoff
      · cases hoff.symm.trans (hgot rk rfl)
  | @get cluster =>
    have hsrc : q = .got cluster := by
      cases hq with
      | stay _ hc => obtain hc | hc := hc <;> cases hc
      | get => rfl
      | refetch => cases ih.off rfl
    subst hsrc
    obtain ⟨hs, -⟩ := hr'.sourced hn.cursors
    obtain ⟨st, hst, hrk⟩ := ((hr'.sourced hn.cursors : ReadRedkey req cluster w')).mem
    refine ⟨fun h => (by cases h), hstart, fun rk hrk' => ?_, hgot, fun _ h => (by cases h), hbinds⟩
    cases hrk'
    exact ⟨hs, ((hr'.versions hn.versions).of_mem hst hrk).1⟩
  | missing =>
    exact ⟨fun h => (by cases h), hstart, fun _ h => (by cases h), hgot, fun _ h => (by cases h),
      hbinds⟩
  | mismatch hne => exact absurd (ih.roleRef_eq rfl hw) hne
  | replace => exact absurd rfl (ih.matched _)
  | failed =>
    exact ⟨fun h => (by cases h), hstart, fun _ h => (by cases h), hgot, fun _ h => (by cases h),
      hbinds⟩
  | _ => exact ⟨fun h => (by cases h), hstart, keep, hgot, fun _ h => (by cases h), hbinds⟩

theorem Tended.tending (h : Tended T req w₀ p u w) (hn : Newborn req w₀)
    (hb : BindsRobin req w₀.store) : Tending req p u w := by
  refine h.induct ?_ ?_ ?_ ?_ ?_ ?_
  · refine ⟨fun _ => rfl, fun _ => rfl, fun _ h => (by cases h), fun _ h => (by cases h),
      fun _ h => (by cases h), fun st hst => ?_⟩
    rw [hn.history, List.mem_singleton] at hst
    rw [hst]
    exact hb
  · intro p u e w w' _ ih _ he
    refine ⟨ih.off, ih.start, fun rk hrk => ?_, ih.got, ih.matched, fun st hst => ?_⟩
    · obtain ⟨hs, hk⟩ := ih.cluster rk hrk
      exact ⟨(later_env he).snapshot.trans hs, hk⟩
    · obtain hst | rfl := (env_extends he).mem hst
      · exact ih.binds st hst
      · intro rb hrb
        rw [env_robin_eq he] at hrb
        exact ih.binds _ w.store_mem_history rb hrb
  · intro p u w ih
    exact ⟨fun _ => rfl, fun _ => rfl, fun _ h => (by cases h), fun _ h => (by cases h),
      fun _ h => (by cases h), ih.binds⟩
  · intro p q u w _ ih hq
    refine ⟨fun hu => ?_, fun hq' => ?_, ih.cluster, fun rk hrk => ?_, ih.matched, ih.binds⟩
    · cases hqc : q.cluster with
      | none => rfl
      | some rk => rw [← hq.cluster hqc]; exact ih.off hu
    · subst hq'
      cases hq
    · subst hrk
      cases hq
  · intro p u v w ih hv
    cases hv with
    | cleared hg =>
      exact ⟨fun h => (by cases h), fun hp => (by cases ih.start hp), fun rk hrk => ih.cluster rk hrk,
        fun rk hp => (by cases ih.got rk hp), fun _ h => (by cases h), ih.binds⟩
  · intro p q u v w w' c o res hr ih hq hv ok hw
    exact ih.next hr.runs hn hq hv ok hw

/-! ## Redis objects -/

/-- Redis objects exist: Robin has begun to realise a config with primaries and
has not finished one without any since. -/
def redisExists : List Happening → Bool
  | [] => false
  | .moved c :: journal =>
    if 0 < c.spec.primaries ∧ c.phase = .inProgress then true
    else if c.spec.primaries = 0 ∧ c.phase = .applied then false
    else redisExists journal
  | _ :: journal => redisExists journal

/-- Robin's objects are being deleted, or are all gone. -/
def Upkeep.tearing : Upkeep → Prop
  | .finishing _ _ | .finished _ => True
  | _ => False

structure Peaceful (u : Upkeep) (w : World) : Prop where
  rest : EndsHalted w.store.configs → redisExists w.journal = false
  tearing : u.tearing → redisExists w.journal = false ∧ ∀ c ∈ w.store.configs, finished c = true

theorem Peaceful.same (h : Peaceful u w) (hc : w'.store.configs = w.store.configs)
    (hj : w'.journal = w.journal) (hv : v.tearing → u.tearing) : Peaceful v w' := by
  refine ⟨fun he => ?_, fun ht => ?_⟩
  · rw [hj]; exact h.rest (hc ▸ he)
  · rw [hj, hc]; exact h.tearing (hv ht)

theorem redisExists_moves {c : RedkeyConfig} {s : RedkeyConfigStatus} {journal : List Happening}
    (h : s.configPhase = c.phase) : redisExists (moves c s ++ journal) = redisExists journal := by
  simp [moves, h]

theorem Peaceful.robin (h : Peaceful u w) (ho : Orderly w)
    (hk : (w.store.configs.map RedkeyConfig.key).Nodup) {key : NamespacedName} {c : RedkeyConfig}
    {s : RedkeyConfigStatus} (hc : w.store.config key = some c)
    (hm : robinMay w.store.configs c s.configPhase = true) :
    Peaceful u (w.commit (w.store.setConfigStatus key s) (moves c s)) := by
  obtain ⟨hmem, hkey⟩ := Store.config_mem hc
  refine ⟨fun ⟨z', hl, h0, ha⟩ => ?_, fun ht => ?_⟩
  · obtain ⟨z, hz, hzz⟩ : ∃ z, w.store.configs.getLast? = some z ∧
        (if z.key == key then { z with status := s } else z) = z' := by
      simpa [Store.setConfigStatus, List.getLast?_map] using hl
    by_cases hzk : z.key = key
    · -- Robin writes the last config itself
      obtain rfl := Store.eq_of_config hk hc (List.mem_of_getLast? hz) hzk
      rw [if_pos (by simpa using hzk)] at hzz
      subst hzz
      by_cases hp : s.configPhase = z.phase
      · rw [World.journal_commit, redisExists_moves hp]
        exact h.rest ⟨z, hz, h0, hp ▸ ha⟩
      · have hne : z.phase ≠ s.configPhase := Ne.symm hp
        simp only [World.journal_commit, moves, hne, if_false, List.cons_append, List.nil_append,
          redisExists, RedkeyConfig.phase]
        simp [show s.configPhase = .applied from ha, show z.spec.primaries = 0 from h0]
    · -- the last config has been applied, so all others are finished
      rw [if_neg (by simpa using hzk)] at hzz
      subst hzz
      have hfin := ho.shaped.all_finished hz (finished_of_applied ha) c hmem
      rw [World.journal_commit, redisExists_moves (robinMay_finished hm hfin)]
      exact h.rest ⟨z, hz, h0, ha⟩
  · obtain ⟨hflag, hfin⟩ := h.tearing ht
    refine ⟨?_, fun d hd => ?_⟩
    · rw [World.journal_commit, redisExists_moves (robinMay_finished hm (hfin c hmem))]
      exact hflag
    · obtain ⟨e, he, hed⟩ := (aged_setConfigStatus hk hc (robinMay_finished hm)).mem_left hd
      exact hed.finished (hfin e he)

/-- Pruning takes the first of several configs. -/
theorem Tracks.prune_leaves {cluster : Redkey} {c : RedkeyConfig} {older kept : List RedkeyConfig}
    (hs : Sourced req (.pruning cluster (c :: older) kept) w)
    (ht : Tracks (.pruning cluster (c :: older) kept) w)
    (hk : (w.store.configs.map RedkeyConfig.key).Nodup) :
    ∃ d rest, w.store.configs = d :: rest ∧ (w.store.removeConfig c.key).configs = rest ∧
      rest ≠ [] := by
  obtain ⟨d, -, -, hrest, he⟩ := Aged.removeConfig ht.2 hk
  refine ⟨d, _, he, rfl, fun hnil => ?_⟩
  obtain ⟨-, -, all, gone, -, htake, rfl⟩ := hs
  rcases take_lastAppliedIndex all with h | ⟨a, ha, -⟩
  · rw [h] at htake
    simp at htake
  · obtain ⟨b, hb, -⟩ := hrest.mem_right (List.mem_append_right _ ha)
    rw [hnil] at hb
    cases hb

theorem Issues.of_listConfigs {ns name : String} (h : Issues req p (.listConfigs ns name)) :
    ∃ rk, p.cluster = some rk ∧ ns = rk.key.namespace_ ∧ name = rk.key.name := by
  cases h with
  | free hc => cases hc
  | ensure _ hc => cases hc
  | list => exact ⟨_, rfl, rfl, rfl⟩
  | relist => exact ⟨_, rfl, rfl, rfl⟩
  | relistAll => exact ⟨_, rfl, rfl, rfl⟩

/-- A config is deleted by a Reconcile that prunes, or in a teardown. -/
theorem Tending.deleteConfig (h : Tending req p u w) (hs : Sourced req p w) {key : NamespacedName}
    {res : Except ApiError Unit} (hi : Issues req p (.write (.deleteConfig key)))
    (hv : UpkeepNext req u (.write (.deleteConfig key)) res v) :
    (u.tearing ∧ ∃ rk, u = .finished rk ∧ v = .finished rk) ∨
      ∃ cluster c older kept, p = .pruning cluster (c :: older) kept ∧ key = c.key ∧
        u = .read cluster ∧ v = .read cluster := by
  cases hv with
  | pass _ h => cases h
  | tend h => cases h
  | erase => exact .inl ⟨trivial, _, rfl, rfl⟩
  | @prune rk _ _ hne =>
    have hsnap := (h.cluster rk rfl).1
    obtain ⟨cluster, c, older, kept, rfl, rfl⟩ | ⟨cluster, c, items, rfl, rfl⟩ := hi.of_deleteConfig
    · rw [hs.1.snapshot] at hsnap
      cases hsnap
      exact .inr ⟨_, c, older, kept, rfl, rfl, rfl, rfl⟩
    · rw [hs.1.snapshot] at hsnap
      cases hsnap
      exact absurd hs.2.1 hne

theorem UpkeepNext.of_createConfig {c : RedkeyConfig} {res : Except ApiError Unit}
    (h : UpkeepNext req u (.write (.createConfig c)) res v) : ∃ rk, u = .read rk ∧ v = .read rk := by
  cases h with
  | pass _ h => cases h
  | tend => exact ⟨_, rfl, rfl⟩

/-- The objects are torn down from a list that ends with a finished scale-down. -/
theorem UpkeepNext.tearing {c : Call} {res : Except ApiError (Reply c)}
    (h : UpkeepNext req u c res v) (hv : v.tearing) : u.tearing ∨
      ∃ rk items, u = .read rk ∧ v = .finishing rk [] ∧ EndsHalted (sortBySequence items) ∧
        (⟨c, res⟩ : Σ c, Except ApiError (Reply c)) =
          ⟨.listConfigs rk.key.namespace_ rk.key.name, .ok items⟩ := by
  cases h with
  | list h => exact .inr ⟨_, _, rfl, rfl, h, rfl⟩
  | pass => exact .inl hv
  | delete => exact .inl trivial
  | erase => exact .inl trivial
  | _ => cases hv

theorem Peaceful.next (h : Peaceful u w) (ht : Tending req p u w) (hr : Runs protocol req w₀ p w)
    (hf : Fresh req w₀) {c : Call} {o : Outcome} {res : Except ApiError (Reply c)}
    (hq : Next req p c res q) (hv : UpkeepNext req u c res v) (ok : protocol.call c o w = true)
    (hw : answer c o w = some (res, w')) : Peaceful v w' := by
  obtain ⟨ho, htr⟩ := hr.orderly hf
  have hs := hr.sourced hf.cursors
  have hk := (hr.provenance hf).keys _ w.store_mem_history
  -- a teardown begins with a list that is read
  have begins : v.tearing → ¬ u.tearing →
      redisExists w.journal = false ∧ ∀ c ∈ w.store.configs, finished c = true := by
    intro hvt hut
    obtain hut' | ⟨rk, items, -, -, ⟨z, hl, h0, ha⟩, he⟩ := hv.tearing hvt
    · exact absurd hut' hut
    · cases he
      obtain ⟨rk', hp, hns, hname⟩ := hq.issues.of_listConfigs
      rw [hns, hname] at ok hw
      obtain ⟨hperm, -⟩ := (hr.weaken (robinProtocol.and_right _)).lists_current hf hp ok hw
      rw [sortBySequence_eq hperm ho.ascending] at hl
      exact ⟨h.rest ⟨z, hl, h0, ha⟩, ho.shaped.all_finished hl (finished_of_applied ha)⟩
  have same : w'.store.configs = w.store.configs → w'.journal = w.journal → Peaceful v w' := by
    intro hcs hj
    refine ⟨fun he => ?_, fun hvt => ?_⟩
    · rw [hj]; exact h.rest (hcs ▸ he)
    · rw [hj, hcs]
      by_cases hut : u.tearing
      · exact h.tearing hut
      · exact begins hvt hut
  obtain ⟨hcs, hj⟩ | ⟨d, rfl, -, rfl⟩ | ⟨key, d, rfl, hd, rfl⟩ := answer_configs hw
  · exact same hcs hj
  · obtain ⟨cluster, configs, -, -, rfl⟩ := hq.issues.of_createConfig
    obtain ⟨rk, -, rfl⟩ := hv.of_createConfig
    refine ⟨fun hh => ?_, fun hvt => hvt.elim⟩
    obtain ⟨z, hl, -, ha⟩ := hh
    rw [World.store_commit, List.getLast?_concat] at hl
    cases hl
    cases ha
  · obtain ⟨hut, rk, rfl, rfl⟩ | ⟨cluster, c, older, kept, rfl, rfl, rfl, rfl⟩ :=
      ht.deleteConfig hs hq.issues hv
    · obtain ⟨hflag, hfin⟩ := h.tearing hut
      exact ⟨fun _ => hflag, fun _ => ⟨hflag, fun e he => hfin e (Store.mem_removeConfig.mp he).1⟩⟩
    · obtain ⟨e, rest, hcs, hrm, hne⟩ := Tracks.prune_leaves hs htr hk
      refine ⟨fun hh => ?_, fun hvt => hvt.elim⟩
      obtain ⟨z, hl, hz⟩ := hh
      refine h.rest ⟨z, ?_, hz⟩
      obtain ⟨y, ys, rfl⟩ := List.exists_cons_of_ne_nil hne
      rw [hcs, List.getLast?_cons_cons]
      rw [World.store_commit, hrm] at hl
      exact hl

theorem Tended.peaceful (h : Tended protocol req w₀ p u w) (hf : Fresh req w₀)
    (hb : BindsRobin req w₀.store) : Peaceful u w := by
  refine h.induct (G := fun _ => Peaceful) ?_ ?_ ?_ ?_ ?_ ?_
  · exact ⟨fun _ => by rw [hf.journal]; rfl, fun ht => ht.elim⟩
  · intro p u e w w' h ih ok he
    have hr := h.runs
    cases e with
    | update key spec =>
      obtain ⟨rk, -, -, rfl⟩ := env_update he
      exact ih.same rfl rfl id
    | robin key s =>
      obtain ⟨c, hc, rfl⟩ := env_robin he
      exact ih.robin (hr.orderly hf).1 ((hr.provenance hf).keys _ w.store_mem_history) hc
        (robinMay_of_protocol ok hc)
    | collect key =>
      exact absurd he ((hr.provenance hf).not_collected (hr.versions hf.versions))
  · intro p u w ih
    exact ih.same rfl rfl fun ht => ht.elim
  · intro p q u w _ ih _
    exact ih
  · intro p u v w ih hv
    cases hv with
    | cleared => exact ih.same rfl rfl fun _ => trivial
  · intro p q u v w w' c o res h ih hq hv ok hw
    exact ih.next (h.tending hf.toNewborn hb) h.runs hf hq hv ok hw

/-- An object of Robin is deleted in a teardown only. -/
theorem UpkeepNext.of_delete {k : Kind} {key : NamespacedName} {res : Except ApiError Unit}
    (h : UpkeepNext req u (.write (.delete k key)) res v) :
    u.tearing ∨ ∃ rk, u = .mismatched rk := by
  cases h with
  | pass _ h => cases h
  | tend h => cases h
  | replace => exact .inr ⟨_, rfl⟩
  | delete => exact .inl trivial
  | failed => exact .inl trivial

/-- In every run of the protocol of a new Redkey, with the user scaling to zero and back
at any moment and with any calls failing: when the operator deletes an object of
Robin, Robin has taken down the Redis objects and has no config with primaries left
to realise. A RoleBinding that is there at the start has to refer to Robin's Role:
one that does not is deleted and made anew while Redis runs. -/
theorem robin_deleted_without_redis (hf : Fresh req w₀) (hb : BindsRobin req w₀.store)
    (h : Reaches protocol (reconcile r req) ⟨w₀, none⟩ s) {k : Kind} {key : NamespacedName}
    (hc : pendingCall s = some (.write (.delete k key))) :
    redisExists s.world.journal = false ∧ ∀ c ∈ s.world.store.configs, 0 < c.spec.primaries →
      queued c = false ∧ c.phase ≠ .inProgress := by
  obtain ⟨p, u, v, ht, hv⟩ := tended_pending h hc
  obtain hu | ⟨rk, rfl⟩ := hv.of_delete
  · obtain ⟨hflag, hfin⟩ := (ht.peaceful hf hb).tearing hu
    refine ⟨hflag, fun c hc _ => ⟨?_, fun hp => ?_⟩⟩
    · cases hq : queued c with
      | false => rfl
      | true => rw [← hfin c hc, not_finished_of_queued hq]
    · have hfc := hfin c hc
      simp [finished, isTerminalConfigPhase, hp] at hfc
  · exact absurd rfl ((ht.tending hf.toNewborn hb).matched rk)

theorem bindsRobin_sampleWorld (primaries : Nat) :
    BindsRobin sampleKey (sampleWorld primaries).store := fun _ h => by cases h

/-- The kind of the object of Robin whose deletion is pending. -/
def deletesRobin (s : State server Result) : Option Kind :=
  match pendingCall s with
  | some (.write (.delete k _)) => some k
  | _ => none

theorem of_deletesRobin {k : Kind} (h : deletesRobin s = some k) :
    ∃ key, pendingCall s = some (.write (.delete k key)) := by
  unfold deletesRobin at h
  split at h
  · rename_i k' key hp
    cases h
    exact ⟨key, hp⟩
  · cases h

/-- A cluster that was up is scaled to zero, and its teardown begins. -/
def upAndDown : List (Move server) :=
  undisturbed ++ [robinMoves 1 .inProgress, robinMoves 1 .applied, scaleTo 0] ++ undisturbed ++
    [robinMoves 2 .inProgress, robinMoves 2 .applied, .event .start, .drain .ok 2]

set_option maxRecDepth 100000 in
theorem robin_deleted_without_redis_sample :
    ∃ s, Reaches protocol sampleReconcile ⟨sampleWorld 3, none⟩ s ∧
      (∃ key, pendingCall s = some (.write (.delete .deployment key))) ∧
      s.world.store.configs.map (fun c => (c.spec.primaries, c.phase)) = [(3, .applied), (0, .applied)] ∧
      redisExists s.world.journal = false := by
  obtain ⟨s, hs, ht⟩ : ∃ s, Reaches protocol sampleReconcile ⟨sampleWorld 3, none⟩ s ∧
      decide (deletesRobin s = some .deployment ∧
        s.world.store.configs.map (fun c => (c.spec.primaries, c.phase)) =
          [(3, .applied), (0, .applied)]) = true :=
    exists_reaches_of_play upAndDown _ (by decide +kernel)
  obtain ⟨hd, hcs⟩ := of_decide_eq_true ht
  obtain ⟨key, hp⟩ := of_deletesRobin hd
  exact ⟨s, hs, ⟨key, hp⟩, hcs,
    (robin_deleted_without_redis (fresh_sampleWorld 3) (bindsRobin_sampleWorld 3) hs hp).1⟩

end RedkeyOperator.Protocol
