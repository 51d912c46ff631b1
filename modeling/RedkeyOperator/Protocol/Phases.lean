import RedkeyOperator.Data.Forall2
import RedkeyOperator.Protocol.History

/-! # Phases of configs: the operator and Robin together

Robin takes the queued configs one at a time, lowest sequence first; the
operator appends to the queue and prunes its finished end. Sorted by sequence,
the phases therefore always read finished, then at most one in progress, then
queued, and only finished configs are deleted. -/
namespace RedkeyOperator.Protocol
open RedkeyOperator.Api RedkeyOperator.Kube RedkeyOperator.Interleave RedkeyOperator.Controller

variable {T : Terms server} {req : NamespacedName} {w₀ w w' : World} {p q : Point}

/-! ## Robin -/

/-- An empty phase counts as Pending. -/
def isQueuedPhase (phase : ConfigPhase) : Bool := phase == .unset || phase == .pending

def queued (c : RedkeyConfig) : Bool := isQueuedPhase c.phase

def finished (c : RedkeyConfig) : Bool := isTerminalConfigPhase c.phase

/-- No config is in progress and no queued config comes before `c`. -/
def isNext (configs : List RedkeyConfig) (c : RedkeyConfig) : Bool :=
  configs.all fun d => d.phase != .inProgress && (!queued d || decide (c.sequence ≤ d.sequence))

def hasLaterQueued (configs : List RedkeyConfig) (c : RedkeyConfig) : Bool :=
  configs.any fun d => queued d && decide (c.sequence < d.sequence)

/-- The phases Robin may give to `c`. Status writes that keep the phase are free. -/
def robinMay (configs : List RedkeyConfig) (c : RedkeyConfig) (next : ConfigPhase) : Bool :=
  if next = c.phase then true
  else if queued c then match next with
    | .unset | .pending => true
    | .inProgress => isNext configs c
    | .superseded => isNext configs c && hasLaterQueued configs c
    | .applied => false
  else c.phase == .inProgress && next == .applied

def robinProtocol : Terms server where
  env e w := match e with
    | .robin key s => (w.store.config key).all fun c => robinMay w.store.configs c s.configPhase
    | _ => true
  call _ _ _ := true

/-- A queued config is superseded if its spec allows that and a later one is
queued, and is taken up otherwise. -/
def robinSkips : Terms server where
  env e w := match e with
    | .robin key s => (w.store.config key).all fun c => !queued c || match s.configPhase with
      | .superseded => c.spec.skipIfSuperseded
      | .inProgress => !(c.spec.skipIfSuperseded && hasLaterQueued w.store.configs c)
      | _ => true
    | _ => true
  call _ _ _ := true

/-- Lists of configs are read from the current store. -/
def currentLists : Terms server where
  env _ _ := true
  call c o w := match c, o with
    | .listConfigs _ _, .stale i _ => i == w.now
    | _, _ => true

/-- Reconciles start from the current Redkey. -/
def currentGets : Terms server where
  env _ _ := true
  call c o w := match c, o with
    | .getRedkey _, .stale i _ => i == w.now
    | _, _ => true

def protocol : Terms server := robinProtocol.and currentLists

theorem robinMay_of_protocol {key : NamespacedName} {s : RedkeyConfigStatus} {w : World}
    {c : RedkeyConfig} (ok : protocol.env (.robin key s) w = true)
    (hc : w.store.config key = some c) : robinMay w.store.configs c s.configPhase = true := by
  have hr := (robinProtocol.and_left currentLists).env _ _ ok
  simpa [robinProtocol, hc] using hr

theorem robinMay_cases {configs : List RedkeyConfig} {c : RedkeyConfig} {next : ConfigPhase}
    (h : robinMay configs c next = true) :
    next = c.phase ∨ (queued c = true ∧ isQueuedPhase next = true) ∨
      (c.phase = .inProgress ∧ next = .applied) ∨
      (queued c = true ∧ isNext configs c = true ∧ (next = .inProgress ∨ next = .superseded)) := by
  unfold robinMay at h
  split at h
  · exact .inl (by assumption)
  · split at h
    · rename_i hq
      cases next with
      | unset => exact .inr (.inl ⟨hq, rfl⟩)
      | pending => exact .inr (.inl ⟨hq, rfl⟩)
      | inProgress => exact .inr (.inr (.inr ⟨hq, h, .inl rfl⟩))
      | superseded => exact .inr (.inr (.inr ⟨hq, (Bool.and_eq_true_iff.mp h).1, .inr rfl⟩))
      | applied => cases h
    · exact .inr (.inr (.inl (by simpa using h)))

theorem finished_of_not_queued {c : RedkeyConfig} (hq : queued c = false)
    (hp : c.phase ≠ .inProgress) : finished c = true := by
  cases h : c.phase <;> simp_all [queued, finished, isQueuedPhase, isTerminalConfigPhase]

theorem not_finished_of_queued {c : RedkeyConfig} (h : queued c = true) : finished c = false := by
  cases hp : c.phase <;> simp_all [queued, finished, isQueuedPhase, isTerminalConfigPhase]

theorem finished_of_applied {c : RedkeyConfig} (h : c.phase = .applied) : finished c = true := by
  simp [finished, isTerminalConfigPhase, h]

/-! ## The shape of the queue -/

/-- What comes before a config that has left the queue is finished. -/
def Shaped (configs : List RedkeyConfig) : Prop :=
  configs.Pairwise fun a b => queued b = true ∨ finished a = true

/-- `b` is `a` at a later time. -/
structure Kin (a b : RedkeyConfig) : Prop where
  same : b = { a with status := b.status }

namespace Kin
variable {a b c : RedkeyConfig}

theorem refl (a : RedkeyConfig) : Kin a a := ⟨rfl⟩

theorem trans (h : Kin a b) (h' : Kin b c) : Kin a c := ⟨by rw [h'.same, h.same]⟩

theorem metadata (h : Kin a b) : b.metadata = a.metadata := by rw [h.same]

theorem spec (h : Kin a b) : b.spec = a.spec := by rw [h.same]

theorem key (h : Kin a b) : b.key = a.key := by rw [RedkeyConfig.key, h.metadata]

theorem sequence (h : Kin a b) : b.sequence = a.sequence := by rw [RedkeyConfig.sequence, h.spec]

end Kin

/-- `b` is `a` at a later time: Robin may have moved it on, unless it was finished. -/
structure Ages (a b : RedkeyConfig) : Prop extends Kin a b where
  final : finished a = true → b.phase = a.phase

theorem Ages.refl (a : RedkeyConfig) : Ages a a := ⟨.refl a, fun _ => rfl⟩

theorem Ages.finished {a b : RedkeyConfig} (h : Ages a b) (ha : finished a = true) :
    finished b = true := by
  rw [Protocol.finished, h.final ha]; exact ha

theorem Ages.applied {a b : RedkeyConfig} (h : Ages a b) (ha : a.phase = .applied) :
    b.phase = .applied := (h.final (finished_of_applied ha)).trans ha

theorem Ages.trans {a b c : RedkeyConfig} (h : Ages a b) (h' : Ages b c) : Ages a c :=
  ⟨h.toKin.trans h'.toKin, fun ha => (h'.final (h.finished ha)).trans (h.final ha)⟩

/-- The configs `l` at a later time, none created and none deleted. -/
abbrev Aged (l l' : List RedkeyConfig) : Prop := List.Forall₂ Ages l l'

theorem Aged.refl (l : List RedkeyConfig) : Aged l l := List.forall₂_same.mpr fun c _ => .refl c

theorem Aged.trans {a b c : List RedkeyConfig} (h : Aged a b) (h' : Aged b c) : Aged a c :=
  h.comp h' fun _ _ _ => Ages.trans

theorem Aged.sequences {l l' : List RedkeyConfig} (h : Aged l l') :
    l'.map RedkeyConfig.sequence = l.map RedkeyConfig.sequence := by
  induction h with
  | nil => rfl
  | cons hab _ ih => rw [List.map_cons, List.map_cons, hab.sequence, ih]

theorem Aged.ascending {l l' : List RedkeyConfig} (h : Aged l l') (ha : Ascending l') :
    Ascending l := by
  have := List.pairwise_map (f := RedkeyConfig.sequence) (R := (· < ·)) |>.mpr ha
  rw [h.sequences] at this
  exact List.pairwise_map.mp this

/-! ## One step of Robin -/

theorem aged_setConfigStatus {st : Store} {key : NamespacedName} {c : RedkeyConfig}
    {s : RedkeyConfigStatus} (hk : (st.configs.map RedkeyConfig.key).Nodup)
    (hc : st.config key = some c) (hs : finished c = true → s.configPhase = c.phase) :
    Aged st.configs (st.setConfigStatus key s).configs := by
  refine List.forall₂_map_right_iff.mpr (List.forall₂_same.mpr fun d hd => ?_)
  split
  · rename_i he
    obtain rfl := Store.eq_of_config hk hc hd (by simpa using he)
    exact ⟨⟨rfl⟩, hs⟩
  · exact .refl d

theorem robinMay_finished {configs : List RedkeyConfig} {c : RedkeyConfig} {next : ConfigPhase}
    (h : robinMay configs c next = true) (hc : finished c = true) : next = c.phase := by
  have hq : queued c = false := by
    cases hq : queued c with
    | false => rfl
    | true => rw [not_finished_of_queued hq] at hc; cases hc
  obtain h | ⟨h, -⟩ | ⟨h, -⟩ | ⟨h, -⟩ := robinMay_cases h
  · exact h
  · rw [hq] at h; cases h
  · simp [finished, isTerminalConfigPhase, h] at hc
  · rw [hq] at h; cases h

theorem robinMay_applied {configs : List RedkeyConfig} {c : RedkeyConfig}
    (h : robinMay configs c .applied = true) : c.phase = .applied ∨ c.phase = .inProgress := by
  obtain h | ⟨-, h⟩ | ⟨h, -⟩ | ⟨-, -, h⟩ := robinMay_cases h
  · exact .inl h.symm
  · cases h
  · exact .inr h
  · obtain h | h := h <;> cases h

/-- Robin takes the next queued config only after all before it are finished. -/
theorem shaped_setConfigStatus {st : Store} {key : NamespacedName} {c : RedkeyConfig}
    {s : RedkeyConfigStatus} (hk : (st.configs.map RedkeyConfig.key).Nodup)
    (ha : Ascending st.configs) (hsh : Shaped st.configs) (hc : st.config key = some c)
    (hm : robinMay st.configs c s.configPhase = true) :
    Shaped (st.setConfigStatus key s).configs := by
  refine List.pairwise_map.mpr (List.Pairwise.imp_of_mem ?_ (ha.and hsh))
  rintro a b hma hmb ⟨hlt, hab⟩
  by_cases hak : a.key = key
  · -- the earlier config moves: it was queued, with only queued ones after it, or it finishes
    obtain rfl := Store.eq_of_config hk hc hma hak
    have hbk : b.key ≠ key := by
      intro he
      rw [Store.eq_of_config hk hc hmb he] at hlt
      exact lt_irrefl _ hlt
    simp only [hak, hbk, beq_self_eq_true, ite_true, beq_iff_eq, ite_false]
    have hqueue : queued a = true → queued b = true := fun hq =>
      hab.resolve_right (by simp [not_finished_of_queued hq])
    obtain h | ⟨h, -⟩ | ⟨-, h⟩ | ⟨h, -, -⟩ := robinMay_cases hm
    · simpa [finished, RedkeyConfig.phase, h] using hab
    · exact .inl (hqueue h)
    · exact .inr (by simp [finished, isTerminalConfigPhase, RedkeyConfig.phase, h])
    · exact .inl (hqueue h)
  by_cases hbk : b.key = key
  · -- the later one moves: it stays in the queue, or nothing before it is queued or in progress
    obtain rfl := Store.eq_of_config hk hc hmb hbk
    simp only [hak, hbk, beq_self_eq_true, ite_true, beq_iff_eq, ite_false]
    obtain h | ⟨-, h⟩ | ⟨h, -⟩ | ⟨-, h, -⟩ := robinMay_cases hm
    · simpa [queued, RedkeyConfig.phase, h] using hab
    · exact .inl h
    · refine .inr (hab.resolve_left ?_)
      simp [queued, isQueuedPhase, h]
    · refine .inr (finished_of_not_queued ?_ ?_)
      · have := List.all_eq_true.mp h a hma
        simp only [Bool.and_eq_true, Bool.or_eq_true, Bool.not_eq_true', decide_eq_true_eq] at this
        exact this.2.resolve_right (by omega)
      · have := List.all_eq_true.mp h a hma
        simp only [Bool.and_eq_true, bne_iff_ne] at this
        exact this.1
  · simpa [hak, hbk] using hab

/-! ## What a Reconcile knows of the queue -/

structure Orderly (w : World) : Prop where
  ascending : Ascending w.store.configs
  shaped : Shaped w.store.configs
  deleted : ∀ c last, .deleted c last ∈ w.journal → finished c = true
  /-- A config is stored until it is deleted. -/
  kept : ∀ c, .created c ∈ w.journal →
    (∃ d ∈ w.store.configs, Ages c d) ∨ ∃ d last, .deleted d last ∈ w.journal ∧ Ages c d

/-- The list a point holds, against the configs stored now. Reads are current and
nobody else creates or deletes configs, so only phases can have moved on. -/
def Tracks : Point → World → Prop
  | .listed _ configs, w => Shaped configs ∧ Aged configs w.store.configs
  | .pruning _ older kept, w =>
    (∀ c ∈ older, finished c = true) ∧ Aged (older ++ kept) w.store.configs
  | .aggregating _ configs, w | .refetched _ configs _, w => Aged configs w.store.configs
  | .deleting _ items, w =>
    ∀ c ∈ w.store.configs, finished c = true ∧ ∃ d ∈ items, d.key = c.key
  | _, _ => True

theorem Tracks.aged (h : Tracks p w) (ha : Aged w.store.configs w'.store.configs) :
    Tracks p w' := by
  cases p with
  | listed rk configs => exact ⟨h.1, h.2.trans ha⟩
  | pruning rk older kept => exact ⟨h.1, h.2.trans ha⟩
  | aggregating rk configs => exact Aged.trans h ha
  | refetched rk configs latest => exact Aged.trans h ha
  | deleting rk items =>
    intro c hc
    obtain ⟨b, hb, hbc⟩ := ha.mem_left hc
    obtain ⟨hf, d, hd, hk⟩ := h b hb
    exact ⟨hbc.finished hf, d, hd, hk.trans hbc.key.symm⟩
  | _ => trivial

theorem Tracks.same (h : Tracks p w) (hc : w'.store.configs = w.store.configs) : Tracks p w' :=
  h.aged (by rw [hc]; exact .refl _)

theorem Orderly.same (h : Orderly w) (hc : w'.store.configs = w.store.configs)
    (hj : w'.journal = w.journal) : Orderly w' where
  ascending := by rw [hc]; exact h.ascending
  shaped := by rw [hc]; exact h.shaped
  deleted := by rw [hj]; exact h.deleted
  kept := by rw [hc, hj]; exact h.kept

/-! ## Pruning and tearing down -/

/-- In a queue of the right shape everything before an Applied config is finished. -/
theorem Shaped.take_finished {configs : List RedkeyConfig} (h : Shaped configs) :
    ∀ c ∈ configs.take (lastAppliedIndex configs), finished c = true := by
  by_cases hex : ∃ c ∈ configs, c.phase = .applied
  · obtain ⟨a, rest, hd, ha, -⟩ := drop_lastAppliedIndex hex
    intro c hc
    rw [Shaped, ← List.take_append_drop (lastAppliedIndex configs) configs, hd] at h
    refine ((List.pairwise_append.mp h).2.2 c hc a List.mem_cons_self).resolve_left ?_
    simp [queued, isQueuedPhase, ha]
  · have hn : ∀ c ∈ configs, c.phase ≠ .applied := fun c hc hp => hex ⟨c, hc, hp⟩
    simp [lastAppliedIndex_eq_zero hn]

/-- Robin finishes the last config after all others. -/
theorem Shaped.all_finished {configs : List RedkeyConfig} (h : Shaped configs) {c : RedkeyConfig}
    (hl : configs.getLast? = some c) (hc : finished c = true) :
    ∀ d ∈ configs, finished d = true := by
  obtain ⟨front, rfl⟩ := List.getLast?_eq_some_iff.mp hl
  intro d hd
  rcases List.mem_append.mp hd with hd | hd
  · refine ((List.pairwise_append.mp h).2.2 d hd c List.mem_cons_self).resolve_left ?_
    intro hq
    rw [not_finished_of_queued hq] at hc
    cases hc
  · rw [List.mem_singleton.mp hd]; exact hc

/-- The configs left after the first one is deleted are those that had been listed after it. -/
theorem Aged.removeConfig {st : Store} {c : RedkeyConfig} {rest : List RedkeyConfig}
    (h : Aged (c :: rest) st.configs) (hk : (st.configs.map RedkeyConfig.key).Nodup) :
    ∃ d, st.config c.key = some d ∧ Ages c d ∧ Aged rest (st.removeConfig c.key).configs ∧
      st.configs = d :: (st.removeConfig c.key).configs := by
  cases hcs : st.configs with
  | nil => rw [hcs] at h; cases h
  | cons d ds =>
    rw [hcs] at h hk
    obtain ⟨hcd, hrest⟩ := List.forall₂_cons.mp h
    have hne : ∀ e ∈ ds, e.key ≠ c.key := by
      intro e he hek
      rw [List.map_cons, List.nodup_cons] at hk
      exact hk.1 (List.mem_map.mpr ⟨e, he, hek.trans hcd.key.symm⟩)
    have hrm : (st.removeConfig c.key).configs = ds := by
      simp only [Store.removeConfig, hcs]
      rw [List.filter_cons_of_neg (by simp [hcd.key])]
      exact List.filter_eq_self.mpr fun e he => by simpa using hne e he
    exact ⟨d, by simp [Store.config, hcs, hcd.key], hcd, hrm ▸ hrest, by rw [hrm]⟩

/-! ## Steps -/

theorem view_currentLists {ns cluster : String} {o : Outcome} {f i : Nat} {st : Store}
    (ok : currentLists.call (.listConfigs ns cluster) o w = true)
    (hv : o.view f w = some (i, st)) : i = w.now ∧ st = w.store :=
  view_now (fun j order ho => by subst ho; simpa [currentLists] using ok) hv

theorem Orderly.robin (h : Orderly w) (hk : (w.store.configs.map RedkeyConfig.key).Nodup)
    {key : NamespacedName} {c : RedkeyConfig} {s : RedkeyConfigStatus}
    (hc : w.store.config key = some c)
    (hm : robinMay w.store.configs c s.configPhase = true) :
    Orderly (w.commit (w.store.setConfigStatus key s) (moves c s)) := by
  have haged := aged_setConfigStatus hk hc (robinMay_finished hm)
  refine ⟨?_, shaped_setConfigStatus hk h.ascending h.shaped hc hm, fun d last hd => ?_,
    fun d hd => ?_⟩
  · have := List.pairwise_map (f := RedkeyConfig.sequence) (R := (· < ·)) |>.mpr h.ascending
    rw [← haged.sequences] at this
    exact List.pairwise_map.mp this
  · exact h.deleted d last ((List.mem_append.mp hd).resolve_left fun hm => nomatch (eq_of_mem_moves hm).1)
  · have hd := (List.mem_append.mp hd).resolve_left fun hm => nomatch (eq_of_mem_moves hm).1
    obtain ⟨e, he, hde⟩ | ⟨e, last, he, hde⟩ := h.kept d hd
    · obtain ⟨f, hf, hef⟩ := haged.mem_right he
      exact .inl ⟨f, hf, hde.trans hef⟩
    · exact .inr ⟨e, last, List.mem_append_right _ he, hde⟩

theorem Orderly.create (h : Orderly w) {c : RedkeyConfig}
    (hs : ∀ d ∈ w.store.configs, d.sequence < c.sequence) (hp : c.status = {}) :
    Orderly (w.commit { w.store with configs := w.store.configs ++ [c] } [.created c]) := by
  refine ⟨?_, ?_, fun d last hd => ?_, fun d hd => ?_⟩
  · refine List.pairwise_append.mpr ⟨h.ascending, List.pairwise_singleton _ _, fun a ha b hb => ?_⟩
    rw [List.mem_singleton.mp hb]
    exact hs a ha
  · refine List.pairwise_append.mpr ⟨h.shaped, List.pairwise_singleton _ _, fun a ha b hb => ?_⟩
    rw [List.mem_singleton.mp hb]
    exact .inl (by simp [queued, isQueuedPhase, RedkeyConfig.phase, hp])
  · exact h.deleted d last ((List.mem_cons.mp hd).resolve_left nofun)
  · rcases List.mem_cons.mp hd with hd | hd
    · cases hd
      exact .inl ⟨c, List.mem_append_right _ List.mem_cons_self, .refl c⟩
    · obtain ⟨e, he, hde⟩ | ⟨e, last, he, hde⟩ := h.kept d hd
      · exact .inl ⟨e, List.mem_append_left _ he, hde⟩
      · exact .inr ⟨e, last, List.mem_cons_of_mem _ he, hde⟩

theorem Orderly.delete (h : Orderly w) {key : NamespacedName} {c : RedkeyConfig} {last : Bool}
    (hk : (w.store.configs.map RedkeyConfig.key).Nodup) (hc : w.store.config key = some c)
    (hf : finished c = true) :
    Orderly (w.commit (w.store.removeConfig key) [.deleted c last]) := by
  refine ⟨h.ascending.sublist List.filter_sublist, h.shaped.sublist List.filter_sublist,
    fun d l hd => ?_, fun d hd => ?_⟩
  · rcases List.mem_cons.mp hd with hd | hd
    · cases hd; exact hf
    · exact h.deleted d l hd
  · obtain ⟨e, he, hde⟩ | ⟨e, l, he, hde⟩ := h.kept d ((List.mem_cons.mp hd).resolve_left nofun)
    · by_cases hek : e.key = key
      · rw [Store.eq_of_config hk hc he hek] at hde
        exact .inr ⟨c, last, List.mem_cons_self, hde⟩
      · exact .inl ⟨e, Store.mem_removeConfig.mpr ⟨he, hek⟩, hde⟩
    · exact .inr ⟨e, l, List.mem_cons_of_mem _ he, hde⟩

/-- The config that a Reconcile deletes next is finished. -/
theorem Tracks.deletes (h : Tracks p w) (hk : (w.store.configs.map RedkeyConfig.key).Nodup)
    {key : NamespacedName} {c : RedkeyConfig} (hi : Issues req p (.write (.deleteConfig key)))
    (hc : w.store.config key = some c) : finished c = true := by
  obtain ⟨cluster, d, older, kept, rfl, rfl⟩ | ⟨cluster, d, items, rfl, rfl⟩ := hi.of_deleteConfig
  · obtain ⟨e, he, hde, -⟩ := Aged.removeConfig h.2 hk
    rw [hc] at he
    cases he
    exact hde.finished (h.1 d List.mem_cons_self)
  · exact (h c (Store.config_mem hc).1).1

theorem Orderly.effect (h : Orderly w) (ht : Tracks p w)
    (hk : (w.store.configs.map RedkeyConfig.key).Nodup) (he : Effect T req p w w') :
    Orderly w' := by
  cases he with
  | quiet hq => exact h.same hq.configs hq.journal
  | sawRedkey => exact h.same rfl rfl
  | sawConfigs => exact h.same rfl rfl
  | updated => exact h.same rfl rfl
  | created hi ok hn =>
    obtain ⟨cluster, configs, rfl, -, rfl⟩ := hi.of_createConfig
    refine h.create (fun d hd => ?_) rfl
    obtain ⟨e, he, hed⟩ := ht.2.mem_left hd
    rw [hed.sequence]
    exact (ht.2.ascending h.ascending).lt_nextSequence e he
  | deleted hi ok hc => exact h.delete hk hc (ht.deletes hk hi hc)

theorem Tracks.prune {rk : Redkey} {configs : List RedkeyConfig} (hs : Shaped configs)
    (ha : Aged configs w.store.configs) : Tracks (.prune rk configs) w :=
  ⟨hs.take_finished, by rw [List.take_append_drop]; exact ha⟩

theorem Tracks.silent (h : Tracks p w) (hq : Silent p q) : Tracks q w := by
  cases hq with
  | quit => trivial
  | reuse => exact .prune h.1 h.2
  | begun => trivial
  | pruned => exact h.2
  | await => exact h.2
  | again => exact h
  | skip => trivial
  | steady =>
    intro c hc
    obtain ⟨d, hd, -⟩ := h.2.mem_left hc
    cases hd

/-- A list read under the protocol is the stored one, in some order. -/
theorem Runs.lists_current (h : Runs currentLists req w₀ p w) (hf : Fresh req w₀) {rk : Redkey}
    (hp : p.cluster = some rk) {o : Outcome} {items : List RedkeyConfig}
    (ok : currentLists.call (.listConfigs rk.key.namespace_ rk.key.name) o w = true)
    (hw : answer (.listConfigs rk.key.namespace_ rk.key.name) o w = some (.ok items, w')) :
    items.Perm w.store.configs ∧ w' = w.sawConfigs w.now items := by
  obtain ⟨i, st, hv, hperm, rfl⟩ := answer_listConfigs_ok hw
  obtain ⟨rfl, rfl⟩ := view_currentLists ok hv
  have hvs := h.versions hf.versions
  obtain ⟨st, hst, hrk⟩ := ((h.sourced hf.cursors).readRedkey hp).mem
  rw [(hvs.of_mem hst hrk).1, (h.provenance hf).configsOf hvs w.store_mem_history] at hperm
  exact ⟨hperm, rfl⟩

theorem Tracks.next (h : Runs protocol req w₀ p w) (hf : Fresh req w₀) (ho : Orderly w)
    (ht : Tracks p w) {c : Call} {o : Outcome} {res : Except ApiError (Reply c)}
    (hq : Next req p c res q) (ok : protocol.call c o w = true)
    (hw : answer c o w = some (res, w')) : Tracks q w' := by
  have hcur : Runs currentLists req w₀ p w := h.weaken (robinProtocol.and_right _)
  have hk := (h.provenance hf).keys _ w.store_mem_history
  cases hq with
  | stay hi hc => exact ht.same (quiet_answer hc hw).configs
  | failed => trivial
  | get => trivial
  | missing => trivial
  | list =>
    obtain ⟨hp, rfl⟩ := hcur.lists_current hf rfl ok hw
    rw [sortBySequence_eq hp ho.ascending]
    exact ⟨ho.shaped, .refl _⟩
  | create => trivial
  | relist =>
    obtain ⟨hp, rfl⟩ := hcur.lists_current hf rfl ok hw
    rw [sortBySequence_eq hp ho.ascending]
    exact .prune ho.shaped (.refl _)
  | @prune cluster c older kept r hr =>
    obtain ⟨e, he, -, hrest, -⟩ := Aged.removeConfig ht.2 hk
    have hstore : w'.store.configs = (w.store.removeConfig c.key).configs := by
      obtain rfl | rfl := hr
      · obtain ⟨st, hst, rfl⟩ := answer_write_ok hw
        obtain ⟨-, -, rfl⟩ := apply_deleteConfig hst
        rfl
      · have := (apply_deleteConfig_error (answer_write_rejected hw (by simp)).2).2
        rw [he] at this
        cases this
    refine ⟨fun d hd => ht.1 d (List.mem_cons_of_mem _ hd), ?_⟩
    rw [hstore]
    exact hrest
  | refetch => obtain ⟨i, st, -, -, rfl⟩ := answer_getRedkey_ok hw; exact ht.same rfl
  | retryRead =>
    obtain ⟨-, rfl⟩ | ⟨i, st, -, -, rfl⟩ := answer_getRedkey hw
    · exact ht
    · exact ht.same rfl
  | update => trivial
  | retryUpdate =>
    obtain ⟨rfl, -⟩ | ⟨st, hst, rfl, -⟩ := answer_write hw
    · exact ht
    · obtain ⟨cur, -, -, rfl⟩ := apply_updateStatus hst
      exact Tracks.same (p := .aggregating _ _) ht rfl
  | relistAll hd =>
    obtain ⟨hp, rfl⟩ := hcur.lists_current hf rfl ok hw
    obtain ⟨-, z, hl, -, hz⟩ := hd
    intro c hc
    obtain ⟨d, hd, hdc⟩ := ht.2.mem_left hc
    have hfin := ht.1.all_finished hl (finished_of_applied hz) d hd
    exact ⟨hdc.finished hfin, c, hp.mem_iff.mpr hc, rfl⟩
  | @delete cluster c items r hr =>
    intro d hd
    obtain ⟨hmem, hne⟩ : d ∈ w.store.configs ∧ d.key ≠ c.key := by
      obtain rfl | rfl := hr
      · obtain ⟨st, hst, rfl⟩ := answer_write_ok hw
        obtain ⟨-, -, rfl⟩ := apply_deleteConfig hst
        exact Store.mem_removeConfig.mp hd
      · obtain ⟨rfl, he⟩ := answer_write_rejected hw (by simp)
        exact ⟨hd, Store.config_eq_none.mp (apply_deleteConfig_error he).2 d hd⟩
    obtain ⟨hfin, e, he, hek⟩ := ht d hmem
    refine ⟨hfin, e, ?_, hek⟩
    exact (List.mem_cons.mp he).resolve_left fun h => hne (by rw [← hek, h])
  | zero => trivial

theorem Runs.orderly (h : Runs protocol req w₀ p w) (hf : Fresh req w₀) :
    Orderly w ∧ Tracks p w := by
  induction h using Runs.induct with
  | init =>
    refine ⟨⟨?_, ?_, ?_, ?_⟩, trivial⟩ <;> simp [hf.configs, hf.journal, Shaped]
  | env p e w w' h ok hw ih =>
    have hprov := h.provenance hf
    cases e with
    | update key spec =>
      obtain ⟨rk, -, -, rfl⟩ := env_update hw
      exact ⟨ih.1.same rfl rfl, ih.2.same rfl⟩
    | robin key s =>
      obtain ⟨c, hc, rfl⟩ := env_robin hw
      have hm := robinMay_of_protocol ok hc
      have hk := hprov.keys _ w.store_mem_history
      exact ⟨ih.1.robin hk hc hm, ih.2.aged (aged_setConfigStatus hk hc (robinMay_finished hm))⟩
    | collect key => exact absurd hw (hprov.not_collected (h.versions hf.versions))
  | enter p w h ih => exact ⟨ih.1.same rfl rfl, trivial⟩
  | silent p q w h hq ih => exact ⟨ih.1, ih.2.silent hq⟩
  | call p q w w' c o res h hq ok hw ih =>
    have hk := (h.provenance hf).keys _ w.store_mem_history
    exact ⟨ih.1.effect ih.2 hk (hq.issues.effect ok hw), .next h hf ih.1 ih.2 hq ok hw⟩

/-! ## The queue in every run -/

/-- Finished configs, then at most one in progress, then queued ones. -/
def QueueOrder (configs : List RedkeyConfig) : Prop :=
  ∃ done active waiting, configs = done ++ active ++ waiting ∧
    (∀ c ∈ done, finished c = true) ∧ (active.length ≤ 1 ∧ ∀ c ∈ active, c.phase = .inProgress) ∧
    ∀ c ∈ waiting, queued c = true

theorem Shaped.queueOrder {configs : List RedkeyConfig} (h : Shaped configs) :
    QueueOrder configs := by
  induction configs with
  | nil => exact ⟨[], [], [], rfl, by simp, by simp, by simp⟩
  | cons c cs ih =>
    obtain ⟨hc, hcs⟩ := List.pairwise_cons.mp h
    cases hf : finished c with
    | true =>
      obtain ⟨done, active, waiting, rfl, hd, ha, hw⟩ := ih hcs
      refine ⟨c :: done, active, waiting, rfl, fun d hd' => ?_, ha, hw⟩
      rcases List.mem_cons.mp hd' with rfl | hd'
      · exact hf
      · exact hd d hd'
    | false =>
      have hrest : ∀ d ∈ cs, queued d = true := fun d hd => (hc d hd).resolve_right (by simp [hf])
      cases hq : queued c with
      | true => exact ⟨[], [], c :: cs, rfl, by simp, by simp, by simpa [hq] using hrest⟩
      | false =>
        have hp : c.phase = .inProgress := by
          by_contra hp
          rw [finished_of_not_queued hq hp] at hf
          cases hf
        exact ⟨[], [c], cs, rfl, by simp, by simp [hp], hrest⟩

/-- What the protocol guarantees about deletions, with the running program. -/
structure OnlyFinishedDeleted (s : State server Result) : Prop where
  order : QueueOrder (sortBySequence s.world.store.configs)
  deleting : ∀ key c, pendingCall s = some (.write (.deleteConfig key)) →
    s.world.store.config key = some c → finished c = true
  deleted : ∀ c last, .deleted c last ∈ s.world.journal → finished c = true
  /-- A desired state is stored until its config is finished. -/
  kept : ∀ c, .created c ∈ s.world.journal →
    (∃ d ∈ s.world.store.configs, d = { c with status := d.status }) ∨
      ∃ d last, .deleted d last ∈ s.world.journal ∧ d = { c with status := d.status }

/-- In every run of the protocol, through scale to zero and back and with any
calls failing, the queue keeps its order and only finished configs are deleted. -/
theorem only_finished_configs_deleted {r : RedkeyReconciler} {s : State server Result}
    (hf : Fresh req w₀) (h : Reaches protocol (reconcile r req) ⟨w₀, none⟩ s) :
    OnlyFinishedDeleted s := by
  obtain ⟨p, hr⟩ := reconcile_runs h
  obtain ⟨ho, -⟩ := hr.orderly hf
  refine ⟨?_, fun key c hrun hc => ?_, ho.deleted, fun c hc => ?_⟩
  · rw [sortBySequence_eq (.refl _) ho.ascending]
    exact ho.shaped.queueOrder
  · obtain ⟨q, hq, hi⟩ := reconcile_pending h hrun
    exact (hq.orderly hf).2.deletes ((hq.provenance hf).keys _ s.world.store_mem_history) hi hc
  · obtain ⟨d, hd, hcd⟩ | ⟨d, last, hd, hcd⟩ := ho.kept c hc
    · exact .inl ⟨d, hd, hcd.same⟩
    · exact .inr ⟨d, last, hd, hcd.same⟩

/-- Three configs, of which the second is skipped and the first two are pruned
when the third is applied; then a scale-down with a lost deletion. -/
def skipAndPrune : List (Move server) :=
  undisturbed ++ [robinMoves 1 .inProgress, scaleTo 5] ++ undisturbed ++ [scaleTo 7] ++ undisturbed ++
    [robinMoves 1 .applied, robinMoves 2 .superseded, robinMoves 3 .inProgress,
      robinMoves 3 .applied] ++ undisturbed ++ [scaleTo 0] ++ undisturbed ++
    [robinMoves 4 .inProgress, robinMoves 4 .applied, .event .start, .drain .ok 7, .event (.call .lost),
      .event .stop]

/-- The sequences of the deleted configs, oldest first, and of the stored ones. -/
def fates (w : World) : List Nat × List Nat :=
  (w.journal.reverse.filterMap fun | .deleted c _ => some c.sequence | _ => none,
    w.store.configs.map RedkeyConfig.sequence)

set_option maxRecDepth 100000 in
theorem only_finished_configs_deleted_sample :
    ∃ s, Reaches protocol sampleReconcile ⟨sampleWorld 3, none⟩ s ∧
      fates s.world = ([1, 2, 3], [4]) ∧ OnlyFinishedDeleted s := by
  obtain ⟨s, hs, ht⟩ : ∃ s, Reaches protocol sampleReconcile ⟨sampleWorld 3, none⟩ s ∧
      decide (fates s.world = ([1, 2, 3], [4])) = true :=
    exists_reaches_of_play skipAndPrune _ (by decide +kernel)
  exact ⟨s, hs, by simpa using ht, only_finished_configs_deleted (fresh_sampleWorld 3) hs⟩

end RedkeyOperator.Protocol
