import RedkeyOperator.Interleave.Behaviour
import RedkeyOperator.Protocol.Newest
import RedkeyOperator.Protocol.ScaleToZero

/-! # Robin's work

What Robin still has to do is counted in moves: two for a queued config, one for
a config in progress. Once the config of the current generation is there and the
user leaves the spec alone, the operator adds nothing to it, whichever of its
calls fail, and as long as something is left Robin has a move to make. -/
namespace RedkeyOperator.Protocol
open RedkeyOperator.Api RedkeyOperator.Kube RedkeyOperator.Interleave RedkeyOperator.Controller

variable {T : Terms server} {req : NamespacedName} {w₀ w w' : World} {p q : Point}
  {r : RedkeyReconciler} {s t : State server Result} {cluster cur : Redkey}
  {configs : List RedkeyConfig} {c : RedkeyConfig}

/-! ## Counting moves -/

/-- The moves a config is away from being finished. -/
def remaining : ConfigPhase → Nat
  | .unset | .pending => 2
  | .inProgress => 1
  | .applied | .superseded => 0

def work : List RedkeyConfig → Nat
  | [] => 0
  | c :: cs => remaining c.phase + work cs

/-- The moves of Robin that took a config out of the queue or finished it. -/
def movedOn (w : World) : Nat :=
  w.journal.countP fun
    | .moved c => !queued c
    | _ => false

theorem remaining_eq_zero {c : RedkeyConfig} : remaining c.phase = 0 ↔ finished c = true := by
  rw [finished]
  cases c.phase <;> decide

theorem work_eq_zero : work configs = 0 ↔ ∀ c ∈ configs, finished c = true := by
  induction configs with
  | nil => simp [work]
  | cons c cs ih => simp [work, ih, remaining_eq_zero]

theorem work_le_length (configs : List RedkeyConfig) : work configs ≤ 2 * configs.length := by
  induction configs with
  | nil => simp [work]
  | cons c cs ih =>
    have : remaining c.phase ≤ 2 := by cases c.phase <;> decide
    rw [work, List.length_cons]
    omega

theorem work_filter_le (f : RedkeyConfig → Bool) (configs : List RedkeyConfig) :
    work (configs.filter f) ≤ work configs := by
  induction configs with
  | nil => simp [work]
  | cons c cs ih =>
    rw [List.filter_cons]
    split
    · rw [work, work]
      omega
    · rw [work]
      omega

/-- A status written to one config changes its own share only. -/
theorem work_setConfigStatus {st : Store} {key : NamespacedName} {c : RedkeyConfig}
    {s : RedkeyConfigStatus} (hk : (st.configs.map RedkeyConfig.key).Nodup)
    (hc : st.config key = some c) :
    work (st.setConfigStatus key s).configs + remaining c.phase =
      work st.configs + remaining s.configPhase := by
  obtain ⟨hmem, rfl⟩ := Store.config_mem hc
  simp only [Store.setConfigStatus]
  generalize st.configs = l at hk hmem
  induction l with
  | nil => cases hmem
  | cons d ds ih =>
    obtain ⟨hd, hds⟩ := List.nodup_cons.mp hk
    rw [List.map_cons, work, work]
    by_cases he : d.key = c.key
    · -- it is this one, and the others have other names
      obtain rfl : d = c := by
        rcases List.mem_cons.mp hmem with h | h
        · exact h.symm
        · exact absurd (he ▸ List.mem_map_of_mem h) hd
      have hrest : ds.map (fun e => if e.key == d.key then { e with status := s } else e) = ds := by
        refine (List.map_congr_left fun e hmem => ?_).trans (List.map_id ds)
        have hne : e.key ≠ d.key := fun h => hd (h ▸ List.mem_map_of_mem hmem)
        simp [hne]
      simp only [hrest, beq_self_eq_true, if_true, RedkeyConfig.phase]
      omega
    · have hmem : c ∈ ds := (List.mem_cons.mp hmem).resolve_left fun h => he (h ▸ rfl)
      have := ih hds hmem
      simp only [beq_iff_eq] at this
      simp only [beq_iff_eq, he, if_false]
      omega

/-- Robin never moves a config back, and what it moves on it moves at least by one. -/
theorem robinMay_remaining {c : RedkeyConfig} {next : ConfigPhase}
    (h : robinMay configs c next = true) :
    remaining next ≤ remaining c.phase ∧
      (next ≠ c.phase → isQueuedPhase next = false → remaining next < remaining c.phase) := by
  obtain rfl | ⟨hq, hn⟩ | ⟨hp, rfl⟩ | ⟨hq, -, rfl | rfl⟩ := robinMay_cases h
  · exact ⟨le_rfl, fun h => absurd rfl h⟩
  · rw [queued] at hq
    revert hq hn
    cases c.phase <;> cases next <;> decide
  · rw [hp]
    decide
  · rw [queued] at hq
    revert hq
    cases c.phase <;> decide
  · rw [queued] at hq
    revert hq
    cases c.phase <;> decide

/-! ## The config asked for is there -/

/-- The user asks for primaries, and the config of that generation has been created. -/
def Asked (req : NamespacedName) (w : World) : Prop :=
  ∃ cur, w.store.redkeys req = some cur ∧ 0 < cur.spec.primaries ∧ CreatedFor w cur.generation

theorem CreatedFor.mono {g : Nat} (h : CreatedFor w g) (hj : ∀ x ∈ w.journal, x ∈ w'.journal) :
    CreatedFor w' g := by
  obtain ⟨c, hc, ha⟩ := h
  exact ⟨c, hj _ hc, ha⟩

theorem Asked.same (h : Asked req w) (hr : w'.store.redkeys = w.store.redkeys)
    (hj : ∀ x ∈ w.journal, x ∈ w'.journal) : Asked req w' := by
  obtain ⟨cur, hcur, hpos, hc⟩ := h
  exact ⟨cur, hr ▸ hcur, hpos, hc.mono hj⟩

/-- No other config is created. -/
theorem Asked.not_creates (h : Asked req w) (hr : Runs protocol req w₀ (.listed cluster configs) w)
    (hf : Fresh req w₀) : ¬ Creates cluster configs := by
  obtain ⟨cur, hcur, hpos, hc⟩ := h
  have hv := hr.versions hf.versions
  obtain ⟨hg, hsp, -⟩ := (hr.leading hf.toNewborn).current hv (hr.sourced hf.cursors) rfl hcur hc
  obtain ⟨d, hlast, hm, -⟩ := hr.newest hf cur hcur hpos hc
  obtain ⟨-, hage⟩ := (hr.orderly hf).2
  obtain ⟨c, hcl, hcd⟩ := hage.flip.getLast_right hlast
  have hann : annotatedGeneration c = some (cur.generation : Int) := by
    have := hm.annotated (hv.of_mem w.store_mem_history hcur).2
    rwa [annotatedGeneration, hcd.metadata] at this
  have hne : configs ≠ [] := by
    rintro rfl
    cases hcl
  rw [Creates, if_neg (by rw [hsp]; omega), hcl]
  simp [hne, needsNewConfig, hann, hg]

/-- A status write keeps the spec and the generation. -/
theorem Versions.withStatus (hv : Versions req w) {key : NamespacedName} {rk : Redkey}
    (hc : w.store.redkeys key = some rk) (hcur : w.store.redkeys req = some cur)
    (status : RedkeyStatus) :
    ∃ cur', (w.store.setRedkey (rk.withStatus status)).redkeys req = some cur' ∧
      cur.spec = cur'.spec ∧ cur.generation = cur'.generation := by
  have hk : (rk.withStatus status).key = key := hv.keyed key rk hc
  by_cases he : req = key
  · subst he
    obtain rfl := Option.some.inj (hc.symm.trans hcur)
    refine ⟨rk.withStatus status, ?_, rfl, rfl⟩
    conv_lhs => rw [← hk]
    exact redkeys_setRedkey_self _ _
  · exact ⟨cur, (redkeys_setRedkey_of_ne _ (hk.symm ▸ he)).trans hcur, rfl, rfl⟩

theorem Asked.effect (h : Asked req w) (hr : Runs protocol req w₀ p w) (hf : Fresh req w₀)
    (he : Effect T req p w w') :
    Asked req w' ∧ work w'.store.configs ≤ work w.store.configs ∧ movedOn w' = movedOn w := by
  cases he with
  | quiet hq =>
    exact ⟨h.same hq.redkeys (by simp [hq.journal]), by rw [hq.configs], by rw [movedOn, hq.journal]; rfl⟩
  | sawRedkey => exact ⟨h.same rfl fun _ h => h, le_rfl, rfl⟩
  | sawConfigs => exact ⟨h.same rfl fun _ h => h, le_rfl, rfl⟩
  | updated hi ok hc =>
    obtain ⟨cur, hcur, hpos, hcr⟩ := h
    obtain ⟨cur', hcur', hsp, hg⟩ := (hr.versions hf.versions).withStatus hc hcur _
    exact ⟨⟨cur', hcur', hsp ▸ hpos, hg ▸ hcr⟩, le_rfl, rfl⟩
  | created hi =>
    obtain ⟨cluster, configs, rfl, hc, rfl⟩ := hi.of_createConfig
    exact absurd hc (h.not_creates hr hf)
  | deleted =>
    exact ⟨h.same rfl fun _ h => List.mem_cons_of_mem _ h, work_filter_le _ _, by simp [movedOn]⟩

theorem Asked.robin {key : NamespacedName} {c : RedkeyConfig} {s : RedkeyConfigStatus}
    (h : Asked req w) (hk : (w.store.configs.map RedkeyConfig.key).Nodup)
    (hc : w.store.config key = some c) (hm : robinMay w.store.configs c s.configPhase = true) :
    Asked req (w.commit (w.store.setConfigStatus key s) (moves c s)) ∧
      movedOn (w.commit (w.store.setConfigStatus key s) (moves c s)) +
        work (w.store.setConfigStatus key s).configs ≤ movedOn w + work w.store.configs := by
  refine ⟨h.same rfl fun _ h => List.mem_append_right _ h, ?_⟩
  have hwork := work_setConfigStatus (s := s) hk hc
  obtain ⟨hle, hlt⟩ := robinMay_remaining hm
  simp only [movedOn, World.journal_commit, List.countP_append, moves]
  split
  · simp only [List.countP_nil]
    omega
  · rename_i hne
    cases hq : isQueuedPhase s.configPhase with
    | true =>
      simp [queued, RedkeyConfig.phase, hq]
      omega
    | false =>
      have := hlt (Ne.symm hne) hq
      simp [queued, RedkeyConfig.phase, hq]
      omega

/-- Events of the environment other than an update of the spec. -/
theorem Asked.env {e : Ev} (h : Asked req w) (hr : Runs protocol req w₀ p w) (hf : Fresh req w₀)
    (ok : (protocol.and (specUnchanged req)).env e w = true) (he : env e w = some w') :
    Asked req w' ∧ movedOn w' + work w'.store.configs ≤ movedOn w + work w.store.configs := by
  have hv := hr.versions hf.versions
  have hprov := hr.provenance hf
  have hprotocol := (Terms.and_left protocol (specUnchanged req)).env e w ok
  have huser := (Terms.and_right protocol (specUnchanged req)).env e w ok
  cases e with
  | update key spec =>
    obtain ⟨rk, hrk, -, rfl⟩ := env_update he
    obtain ⟨cur, hcur, hpos, hcr⟩ := h
    have hne : req ≠ (rk.withSpec spec).key := by
      have : key ≠ req := by simpa [specUnchanged] using huser
      rw [show (rk.withSpec spec).key = key from hv.keyed key rk hrk]
      exact this.symm
    exact ⟨⟨cur, (redkeys_setRedkey_of_ne _ hne).trans hcur, hpos, hcr⟩, le_rfl⟩
  | robin key s =>
    obtain ⟨c, hc, rfl⟩ := env_robin he
    exact h.robin (hprov.keys _ w.store_mem_history) hc (robinMay_of_protocol hprotocol hc)
  | collect key => exact absurd he (hprov.not_collected hv)

/-- What Robin has done since `w` has been taken from the work of `w`. -/
structure Spent (req : NamespacedName) (w v : World) : Prop where
  asked : Asked req v
  le : movedOn v + work v.store.configs ≤ movedOn w + work w.store.configs

section
variable {v v' : World}

theorem Spent.env {e : Ev} (h : Spent req w v) (hr : Runs protocol req w₀ p v) (hf : Fresh req w₀)
    (ok : (protocol.and (specUnchanged req)).env e v = true) (he : Kube.env e v = some v') :
    Spent req w v' := by
  obtain ⟨ha, hle⟩ := h.asked.env hr hf ok he
  exact ⟨ha, hle.trans h.le⟩

theorem Spent.enter (h : Spent req w v) : Spent req w (Kube.enter v) :=
  ⟨h.asked.same rfl fun _ h => h, h.le⟩

theorem Spent.effect (h : Spent req w v) (hr : Runs protocol req w₀ p v) (hf : Fresh req w₀)
    (he : Effect T req p v v') : Spent req w v' := by
  obtain ⟨ha, hwork, hmoved⟩ := h.asked.effect hr hf he
  have hle := h.le
  exact ⟨ha, by omega⟩

end

/-- In every run of the machine without updates of the spec. -/
theorem Runs.asked (h₀ : Runs protocol req w₀ .idle w) (hf : Fresh req w₀) (ha : Asked req w)
    {v : World} (h : Runs (protocol.and (specUnchanged req)) req w p v) : Asked req v := by
  have hall : ∀ {p u}, Runs (protocol.and (specUnchanged req)) req w p u →
      Runs protocol req w₀ p u := fun hr => h₀.trans (hr.weaken (Terms.and_left _ _))
  have hspent : Spent req w v := by
    refine h.world (G := Spent req w) ⟨ha, le_rfl⟩ ?_ ?_ ?_
    · exact fun p e u u' hr hu ok he => hu.env (hall hr) hf ok he
    · exact fun u hu => hu.enter
    · exact fun p u u' hr hu he => hu.effect (hall hr) hf he
  exact hspent.asked

/-- From `s` on, in the middle of a Reconcile or not, without updates of the spec. -/
theorem Asked.spent (ha : Asked req s.world) (hf : Fresh req w₀)
    (hs : Reaches protocol (reconcile r req) ⟨w₀, none⟩ s)
    (ht : Reaches (protocol.and (specUnchanged req)) (reconcile r req) s t) :
    Spent req s.world t.world := by
  have hweak := Terms.and_left protocol (specUnchanged req)
  induction ht with
  | refl => exact ⟨ha, le_rfl⟩
  | step e hsu ok hstep ih =>
    obtain ⟨p, hp, ⟨ev, rfl, -, hw⟩ | hw | hw | hw⟩ :=
      reconcile_step (hs.trans hweak hsu) (hweak.allow ok) hstep
    · exact ih.env hp hf ok hw
    · rw [hw]
      exact ih
    · rw [hw]
      exact ih.enter
    · exact ih.effect hp hf hw

/-! ## Robin is never stuck -/

/-- The first of the queued configs is next, unless one is in progress. -/
theorem exists_isNext (ha : Ascending configs) (hp : ∀ c ∈ configs, c.phase ≠ .inProgress)
    (hq : ∃ c ∈ configs, queued c = true) :
    ∃ d ∈ configs, queued d = true ∧ isNext configs d = true := by
  induction configs with
  | nil =>
    obtain ⟨c, hc, -⟩ := hq
    cases hc
  | cons c cs ih =>
    obtain ⟨hlt, hcs⟩ := List.pairwise_cons.mp ha
    cases hqc : queued c with
    | true =>
      refine ⟨c, List.mem_cons_self, hqc, List.all_eq_true.mpr fun d hd => ?_⟩
      have hle : c.sequence ≤ d.sequence := by
        rcases List.mem_cons.mp hd with rfl | hd
        · exact le_rfl
        · exact (hlt d hd).le
      simp [hp d hd, hle]
    | false =>
      have hq' : ∃ d ∈ cs, queued d = true := by
        obtain ⟨d, hd, hqd⟩ := hq
        rcases List.mem_cons.mp hd with rfl | hd
        · rw [hqc] at hqd
          cases hqd
        · exact ⟨d, hd, hqd⟩
      obtain ⟨d, hd, hqd, hn⟩ := ih hcs (fun d hd => hp d (List.mem_cons_of_mem _ hd)) hq'
      refine ⟨d, List.mem_cons_of_mem _ hd, hqd, ?_⟩
      rw [isNext, List.all_cons, ← isNext, hn]
      simp [hp c List.mem_cons_self, hqc]

/-- While something is unfinished, there is a config that Robin may move on. -/
theorem exists_robinMay (ha : Ascending configs) (hu : ∃ c ∈ configs, finished c = false) :
    ∃ c ∈ configs, ∃ next, (next = .inProgress ∨ next = .applied) ∧ next ≠ c.phase ∧
      robinMay configs c next = true := by
  by_cases hp : ∃ c ∈ configs, c.phase = .inProgress
  · obtain ⟨c, hc, hp⟩ := hp
    exact ⟨c, hc, .applied, .inr rfl, by simp [hp], by simp [robinMay, queued, isQueuedPhase, hp]⟩
  · have hp : ∀ c ∈ configs, c.phase ≠ .inProgress := fun c hc h => hp ⟨c, hc, h⟩
    obtain ⟨c, hc, hfc⟩ := hu
    have hqc : queued c = true := by
      by_contra hq
      rw [finished_of_not_queued (Bool.not_eq_true _ ▸ hq) (hp c hc)] at hfc
      cases hfc
    obtain ⟨d, hd, hqd, hn⟩ := exists_isNext ha hp ⟨c, hc, hqc⟩
    refine ⟨d, hd, .inProgress, .inl rfl, (hp d hd).symm, ?_⟩
    simp [robinMay, (hp d hd).symm, hqd, hn]

/-- Robin's next move: a config and the phase it moves on to. -/
def robinsMove (configs : List RedkeyConfig) : Option (RedkeyConfig × ConfigPhase) :=
  (configs.flatMap fun c => [(c, .inProgress), (c, .applied)]).find? fun x =>
    x.2 != x.1.phase && robinMay configs x.1 x.2

/-- The move as an event of the environment. -/
def moveOn (c : RedkeyConfig) (next : ConfigPhase) : Ev :=
  .robin c.key { c.status with configPhase := next }

theorem robinsMove_isSome (ha : Ascending configs) (hu : ∃ c ∈ configs, finished c = false) :
    ∃ c next, robinsMove configs = some (c, next) := by
  obtain ⟨c, hc, next, hn, hne, hm⟩ := exists_robinMay ha hu
  cases h : robinsMove configs with
  | some x => exact ⟨x.1, x.2, rfl⟩
  | none =>
    have hmem : (c, next) ∈ configs.flatMap fun c => [(c, .inProgress), (c, .applied)] := by
      rw [List.mem_flatMap]
      exact ⟨c, hc, by simpa using hn⟩
    have := List.find?_eq_none.mp h _ hmem
    simp [hne, hm] at this

theorem robinsMove_eq_some {next : ConfigPhase} (h : robinsMove configs = some (c, next)) :
    c ∈ configs ∧ robinMay configs c next = true ∧ next ≠ c.phase ∧ isQueuedPhase next = false := by
  have hp := List.find?_some h
  obtain ⟨d, hd, hmem⟩ := List.mem_flatMap.mp (List.mem_of_find?_eq_some h)
  simp only [Bool.and_eq_true, bne_iff_ne] at hp
  rcases List.mem_cons.mp hmem with he | hmem
  · cases he
    exact ⟨hd, hp.2, hp.1, rfl⟩
  · cases List.mem_singleton.mp hmem
    exact ⟨hd, hp.2, hp.1, rfl⟩

/-- The move may be made, and takes one from the work to be done. -/
theorem env_moveOn {next : ConfigPhase} (hk : (w.store.configs.map RedkeyConfig.key).Nodup)
    (h : robinsMove w.store.configs = some (c, next)) :
    w.store.config c.key = some c ∧ protocol.env (moveOn c next) w = true ∧
      env (moveOn c next) w = some (w.commit (w.store.setConfigStatus c.key
        { c.status with configPhase := next }) (moves c { c.status with configPhase := next })) := by
  obtain ⟨hc, hm, -, -⟩ := robinsMove_eq_some h
  have hcfg : w.store.config c.key = some c := by
    cases hn : w.store.config c.key with
    | none => exact absurd rfl (Store.config_eq_none.mp hn c hc)
    | some d =>
      obtain ⟨hd, hkey⟩ := Store.config_mem hn
      rw [List.inj_on_of_nodup_map hk hd hc hkey]
  refine ⟨hcfg, ?_, by rw [moveOn, env, hcfg]; rfl⟩
  simp [moveOn, protocol, Terms.and, robinProtocol, currentLists, hcfg, hm]

theorem exists_advance (ho : Orderly w) (hk : (w.store.configs.map RedkeyConfig.key).Nodup)
    (hu : ∃ c ∈ w.store.configs, finished c = false) :
    ∃ key status v, protocol.env (.robin key status) w = true ∧
      env (.robin key status) w = some v ∧ movedOn v = movedOn w + 1 := by
  obtain ⟨c, next, hmove⟩ := robinsMove_isSome ho.ascending hu
  obtain ⟨-, ok, hv⟩ := env_moveOn hk hmove
  obtain ⟨-, -, hne, hq⟩ := robinsMove_eq_some hmove
  refine ⟨_, _, _, ok, hv, ?_⟩
  simp only [movedOn, World.journal_commit, List.countP_append, moves]
  rw [if_neg hne.symm]
  simp [queued, RedkeyConfig.phase, hq]
  omega

/-- From every reachable state in which the config of the current generation has
been created, a Reconcile under way or not, and as long as the user leaves the
spec alone: however the calls of the operator go and wherever it is cut short, the
moves by which Robin takes up, sets aside or finishes a config are bounded by the
configs stored now, and as long as one of them is unfinished Robin has such a move
to make. -/
theorem robin_work_is_bounded {rk : Redkey} (hf : Fresh req w₀)
    (hs : Reaches protocol (reconcile r req) ⟨w₀, none⟩ s)
    (hrk : s.world.store.redkeys req = some rk) (hpos : 0 < rk.spec.primaries)
    (hc : CreatedFor s.world rk.generation)
    (ht : Reaches (protocol.and (specUnchanged req)) (reconcile r req) s t) :
    movedOn t.world + work t.world.store.configs ≤
        movedOn s.world + 2 * s.world.store.configs.length ∧
      ((∃ c ∈ t.world.store.configs, finished c = false) →
        ∃ key status v, protocol.env (.robin key status) t.world = true ∧
          env (.robin key status) t.world = some v ∧ movedOn v = movedOn t.world + 1) := by
  have hasked : Asked req s.world := ⟨rk, hrk, hpos, hc⟩
  constructor
  · have hle := (hasked.spent hf hs ht).le
    have hwork := work_le_length s.world.store.configs
    omega
  · obtain ⟨p, hp⟩ := reconcile_runs (hs.trans (Terms.and_left _ _) ht)
    exact exists_advance (hp.orderly hf).1 ((hp.provenance hf).keys _ t.world.store_mem_history)

/-- The sample cluster has a config in progress and a queued one, and the next
Reconcile is under way. -/
def twoUnfinished : List (Move server) :=
  undisturbed ++ [robinMoves 1 .inProgress, scaleTo 5] ++ undisturbed ++
    [.event .start, .drain .ok 3]

/-- Robin finishes the one and takes up the other, while the Reconcile goes on. -/
def oneLeft : List (Move server) :=
  [robinMoves 1 .applied, .drain .ok 4, robinMoves 2 .inProgress, .drain .ok 4]

/-- Robin has made these moves, and the configs are in these phases. -/
def standsAt (moved : Nat) (phases : List ConfigPhase) (s : State server Result) : Bool :=
  decide (s.running.isSome ∧ movedOn s.world = moved ∧
    s.world.store.configs.map RedkeyConfig.phase = phases)

set_option maxRecDepth 100000 in
theorem robin_work_is_bounded_sample :
    ∃ s t, Reaches protocol sampleReconcile ⟨sampleWorld 3, none⟩ s ∧
      Reaches (protocol.and (specUnchanged sampleKey)) sampleReconcile s t ∧
      standsAt 1 [.inProgress, .unset] s = true ∧ standsAt 3 [.applied, .inProgress] t = true ∧
      movedOn t.world + work t.world.store.configs ≤
        movedOn s.world + 2 * s.world.store.configs.length ∧
      ∃ key status v, protocol.env (.robin key status) t.world = true ∧
        env (.robin key status) t.world = some v ∧ movedOn v = movedOn t.world + 1 := by
  obtain ⟨s, hs, htest⟩ : ∃ s, Reaches protocol sampleReconcile ⟨sampleWorld 3, none⟩ s ∧
      (observedRunning s.world && (standsAt 1 [.inProgress, .unset] s &&
        (play (protocol.and (specUnchanged sampleKey)) sampleReconcile oneLeft s).any
          (standsAt 3 [.applied, .inProgress]))) = true :=
    exists_reaches_of_play twoUnfinished _ (by decide +kernel)
  obtain ⟨hobs, htest⟩ := Bool.and_eq_true_iff.mp htest
  obtain ⟨hat, hplay⟩ := Bool.and_eq_true_iff.mp htest
  obtain ⟨t, ht, hat'⟩ := exists_reaches_of_play oneLeft _ hplay
  obtain ⟨rk, hrk, hpos, ho⟩ := of_observedRunning hobs
  obtain ⟨p, hp⟩ := reconcile_runs hs
  have hc := hp.observedCreated (fresh_sampleWorld 3) hrk hpos ho
  obtain ⟨hle, hmove⟩ := robin_work_is_bounded (fresh_sampleWorld 3) hs hrk hpos hc ht
  refine ⟨s, t, hs, ht, hat, hat', hle, hmove ?_⟩
  obtain ⟨-, -, hph⟩ := of_decide_eq_true hat'
  have hmem : ConfigPhase.inProgress ∈ t.world.store.configs.map RedkeyConfig.phase := by simp [hph]
  obtain ⟨c, hcm, hcp⟩ := List.mem_map.mp hmem
  exact ⟨c, hcm, by simp [finished, isTerminalConfigPhase, hcp]⟩

end RedkeyOperator.Protocol
