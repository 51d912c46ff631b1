import Mathlib.Data.List.MinMax
import RedkeyOperator.Protocol.Phases

/-! # The recorded topology

Scaling up from zero is locked to the topology in `status.lastApplied*`. It is
recorded as a side effect of aggregating the status of an Applied config with
primaries, so it may lag behind Robin. When Robin takes up no scale-down before
the topologies it has applied are recorded, the lock is right once all configs
are gone. -/
namespace RedkeyOperator.Protocol
open RedkeyOperator.Api RedkeyOperator.Kube RedkeyOperator.Interleave RedkeyOperator.Controller

variable {T : Terms server} {req : NamespacedName} {w₀ w w' : World} {p q : Point}

abbrev Topology := Nat × Int

/-- Robin has the cluster running in the topology of `c`. -/
def baseline (c : RedkeyConfig) : Bool := c.phase == .applied && decide (0 < c.spec.primaries)

/-- Robin has begun to scale down for `c`. -/
def halting (c : RedkeyConfig) : Bool :=
  c.spec.primaries == 0 && (c.phase == .inProgress || c.phase == .applied)

/-- The topology that reached Applied most recently. -/
def lastTopology (journal : List Happening) : Option Topology :=
  journal.findSome? fun
    | .moved c => if baseline c then some c.topology else none
    | _ => none

/-! ## What is remembered -/

/-- `t` is recorded, and no stored config would have another topology recorded. -/
structure Uniform (configs : List RedkeyConfig) (t recorded : Topology) : Prop where
  recorded : recorded = t
  all : ∀ a ∈ configs, baseline a = true → a.topology = t

/-- How the stored configs and the recorded topology remember the last one. -/
structure Memory (configs : List RedkeyConfig) (last : Option Topology) (recorded : Topology) :
    Prop where
  newest : ∀ a ∈ configs, baseline a = true →
    (∀ b ∈ configs, baseline b = true → b.sequence ≤ a.sequence) → last = some a.topology
  gone : (∀ a ∈ configs, baseline a = false) → ∀ t, last = some t → recorded = t
  halted : ∀ z ∈ configs, halting z = true →
    (∀ a ∈ configs, baseline a = true → a.sequence < z.sequence) →
    ∀ t, last = some t → Uniform configs t recorded

variable {configs configs' : List RedkeyConfig} {last : Option Topology} {recorded : Topology}

theorem exists_newest (P : RedkeyConfig → Bool) (h : ∃ a ∈ configs, P a = true) :
    ∃ a ∈ configs, P a = true ∧ ∀ b ∈ configs, P b = true → b.sequence ≤ a.sequence := by
  obtain ⟨a, ha, hp⟩ := h
  cases hm : (configs.filter P).argmax RedkeyConfig.sequence with
  | none =>
    have := List.argmax_eq_none.mp hm
    exact absurd (this ▸ List.mem_filter.mpr ⟨ha, hp⟩ : a ∈ []) List.not_mem_nil
  | some m =>
    obtain ⟨hmem, hpm⟩ := List.mem_filter.mp (List.argmax_mem hm)
    exact ⟨m, hmem, hpm, fun b hb hpb => List.le_of_mem_argmax (List.mem_filter.mpr ⟨hb, hpb⟩) hm⟩

/-- A baseline config is the last one or one that came before it. -/
theorem Memory.exists_last (h : Memory configs last recorded) {a : RedkeyConfig} (ha : a ∈ configs)
    (hb : baseline a = true) : ∃ b ∈ configs, baseline b = true ∧ last = some b.topology := by
  obtain ⟨b, hmem, hb, hmax⟩ := exists_newest baseline ⟨a, ha, hb⟩
  exact ⟨b, hmem, hb, h.newest b hmem hb hmax⟩

/-- Deleting configs when the record cannot change any more. -/
theorem Memory.sublist (h : Memory configs last recorded)
    (hu : ∀ t, last = some t → Uniform configs t recorded)
    (hs : ∀ c ∈ configs', c ∈ configs) : Memory configs' last recorded := by
  refine ⟨fun a ha hb _ => ?_, fun _ t ht => (hu t ht).recorded, fun z hz hh _ t ht => ?_⟩
  · obtain ⟨b, -, -, hl⟩ := h.exists_last (hs a ha) hb
    rw [hl, (hu _ hl).all a (hs a ha) hb]
  · exact ⟨(hu t ht).recorded, fun a ha => (hu t ht).all a (hs a ha)⟩

/-- Recording the topology of a stored config. -/
theorem Memory.record (h : Memory configs last recorded) {a : RedkeyConfig} (ha : a ∈ configs)
    (hb : baseline a = true) : Memory configs last a.topology := by
  refine ⟨h.newest, fun hn => ?_, fun z hz hh hbelow t ht => ?_⟩
  · rw [hn a ha] at hb; cases hb
  · have hu := h.halted z hz hh hbelow t ht
    exact ⟨hu.all a ha hb, hu.all⟩

theorem Memory.create (h : Memory configs last recorded) {c : RedkeyConfig}
    (hq : queued c = true) : Memory (configs ++ [c]) last recorded := by
  have hb : baseline c = false := by
    cases hp : c.phase <;> simp_all [queued, isQueuedPhase, baseline]
  have hh : halting c = false := by
    cases hp : c.phase <;> simp_all [queued, isQueuedPhase, halting]
  have hold : ∀ a ∈ configs ++ [c], baseline a = true → a ∈ configs := by
    intro a ha hba
    refine (List.mem_append.mp ha).resolve_right fun hc => ?_
    rw [List.mem_singleton.mp hc, hb] at hba
    cases hba
  refine ⟨fun a ha hba hmax => ?_, fun hn => ?_, fun z hz hzh hbelow t ht => ?_⟩
  · exact h.newest a (hold a ha hba) hba fun b hb => hmax b (List.mem_append_left _ hb)
  · exact h.gone fun a ha => hn a (List.mem_append_left _ ha)
  · rcases List.mem_append.mp hz with hz | hz
    · have hu := h.halted z hz hzh (fun a ha => hbelow a (List.mem_append_left _ ha)) t ht
      exact ⟨hu.recorded, fun a ha hba => hu.all a (hold a ha hba) hba⟩
    · rw [List.mem_singleton.mp hz, hh] at hzh
      cases hzh

/-- Pruning the oldest config, with an Applied one among the others. -/
theorem Memory.prune (h : Memory configs last recorded) {c : RedkeyConfig}
    (hs : ∀ d, d ∈ configs' → d ∈ configs) (hc : ∀ d ∈ configs, d = c ∨ d ∈ configs')
    (hlt : ∀ d ∈ configs', c.sequence < d.sequence) (hex : ∃ a ∈ configs', a.phase = .applied) :
    Memory configs' last recorded := by
  have hbelow : ∀ {z : RedkeyConfig}, z ∈ configs' →
      (∀ a ∈ configs', baseline a = true → a.sequence < z.sequence) →
      ∀ a ∈ configs, baseline a = true → a.sequence < z.sequence := by
    intro z hz hb a ha hba
    rcases hc a ha with rfl | ha
    · exact hlt z hz
    · exact hb a ha hba
  refine ⟨fun a ha hba hmax => ?_, fun hn t ht => ?_, fun z hz hh hb t ht => ?_⟩
  · refine h.newest a (hs a ha) hba fun b hb hbb => ?_
    rcases hc b hb with rfl | hb
    · exact (hlt a ha).le
    · exact hmax b hb hbb
  · -- the Applied config that is left has no primaries
    obtain ⟨z, hz, hp⟩ := hex
    have hzh : halting z = true := by
      have := hn z hz
      simp only [baseline, hp, beq_self_eq_true, Bool.true_and, decide_eq_false_iff_not] at this
      simp [halting, hp, Nat.eq_zero_of_not_pos this]
    refine (h.halted z (hs z hz) hzh (hbelow hz fun a ha hba => ?_) t ht).recorded
    rw [hn a ha] at hba
    cases hba
  · have hu := h.halted z (hs z hz) hh (hbelow hz hb) t ht
    exact ⟨hu.recorded, fun a ha => hu.all a (hs a ha)⟩

/-! ## Robin and the memory -/

/-- Robin's moves that leave the baseline alone. A scale-down may begin when the
baseline topologies are all recorded. -/
theorem Memory.move (h : Memory configs last recorded) {f : RedkeyConfig → RedkeyConfig}
    (hs : ∀ d, (f d).spec = d.spec) (hb : ∀ d ∈ configs, baseline (f d) = baseline d)
    (hh : ∀ d ∈ configs, halting (f d) = true → halting d = true ∨
      ∀ a ∈ configs, baseline a = true → a.topology = recorded) :
    Memory (configs.map f) last recorded := by
  have hseq : ∀ d, (f d).sequence = d.sequence := fun d => by rw [RedkeyConfig.sequence, hs]
  have htop : ∀ d, (f d).topology = d.topology := fun d => by rw [RedkeyConfig.topology, hs]
  have huni : ∀ t, Uniform configs t recorded → Uniform (configs.map f) t recorded := by
    refine fun t hu => ⟨hu.recorded, fun a' ha' hba => ?_⟩
    obtain ⟨a, ha, rfl⟩ := List.mem_map.mp ha'
    rw [htop]
    exact hu.all a ha (hb a ha ▸ hba)
  refine ⟨fun a' ha' hba hmax => ?_, fun hn => ?_, fun z' hz' hhz hbelow t ht => huni t ?_⟩
  · obtain ⟨a, ha, rfl⟩ := List.mem_map.mp ha'
    rw [htop]
    refine h.newest a ha (hb a ha ▸ hba) fun b hbm hbb => ?_
    rw [← hseq a, ← hseq b]
    exact hmax _ (List.mem_map_of_mem hbm) (by rw [hb b hbm]; exact hbb)
  · exact h.gone fun a ha => by rw [← hb a ha]; exact hn _ (List.mem_map_of_mem ha)
  · obtain ⟨z, hz, rfl⟩ := List.mem_map.mp hz'
    obtain hhz | hall := hh z hz hhz
    · refine h.halted z hz hhz (fun a ha hba => ?_) t ht
      rw [← hseq a, ← hseq z]
      exact hbelow _ (List.mem_map_of_mem ha) (by rw [hb a ha]; exact hba)
    · have hr : recorded = t := by
        by_cases hex : ∃ a ∈ configs, baseline a = true
        · obtain ⟨a, ha, hba⟩ := hex
          obtain ⟨b, hbm, hbb, hl⟩ := h.exists_last ha hba
          rw [hl, hall b hbm hbb] at ht
          exact Option.some.inj ht
        · exact h.gone (fun a ha => Bool.not_eq_true _ ▸ fun hba => hex ⟨a, ha, hba⟩) t ht
      exact ⟨hr, fun a ha hba => (hall a ha hba).trans hr⟩

/-- Robin applies `c`, which comes after all that it has taken up before. -/
theorem Memory.apply {f : RedkeyConfig → RedkeyConfig} {c : RedkeyConfig} (hc : c ∈ configs)
    (hs : ∀ d, (f d).spec = d.spec) (hfc : baseline (f c) = true)
    (hlt : ∀ d ∈ configs, d ≠ c → baseline (f d) = true ∨ halting (f d) = true →
      d.sequence < c.sequence) :
    Memory (configs.map f) (some c.topology) recorded := by
  have hseq : ∀ d, (f d).sequence = d.sequence := fun d => by rw [RedkeyConfig.sequence, hs]
  refine ⟨fun a' ha' hba hmax => ?_, fun hn => ?_, fun z' hz' hhz hbelow => ?_⟩
  · obtain ⟨a, ha, rfl⟩ := List.mem_map.mp ha'
    by_cases hac : a = c
    · rw [hac, RedkeyConfig.topology, RedkeyConfig.topology, hs]
    · have := hmax _ (List.mem_map_of_mem hc) hfc
      rw [hseq, hseq] at this
      exact absurd (hlt a ha hac (.inl hba)) (by omega)
  · rw [hn _ (List.mem_map_of_mem hc)] at hfc
    cases hfc
  · obtain ⟨z, hz, rfl⟩ := List.mem_map.mp hz'
    have := hbelow _ (List.mem_map_of_mem hc) hfc
    rw [hseq, hseq] at this
    by_cases hzc : z = c
    · rw [hzc] at this; exact absurd this (lt_irrefl _)
    · exact absurd (hlt z hz hzc (.inr hhz)) (by omega)

/-- What is not queued comes before the config in progress. -/
theorem Shaped.lt_inProgress {c d : RedkeyConfig} (h : Shaped configs) (ha : Ascending configs)
    (hc : c ∈ configs) (hp : c.phase = .inProgress) (hd : d ∈ configs) (hdc : d ≠ c)
    (hq : queued d = false) : d.sequence < c.sequence := by
  by_contra hle
  have hne : c.sequence ≠ d.sequence := fun he => hdc (ha.eq_of_sequence hd hc he.symm)
  obtain hr | hr := ha.rel_of_lt h hc hd (by omega)
  · rw [hq] at hr; cases hr
  · simp [finished, isTerminalConfigPhase, hp] at hr

theorem not_queued_of_baseline {c : RedkeyConfig} (h : baseline c = true ∨ halting c = true) :
    queued c = false := by
  cases hp : c.phase <;> simp_all [queued, isQueuedPhase, baseline, halting]

theorem finished_of_baseline {c : RedkeyConfig} (h : baseline c = true) : finished c = true := by
  simp_all [baseline, finished, isTerminalConfigPhase]

theorem lastTopology_moves (c : RedkeyConfig) (s : RedkeyConfigStatus) (journal : List Happening)
    (h : baseline { c with status := s } = true → s.configPhase = c.phase) :
    lastTopology (moves c s ++ journal) = lastTopology journal := by
  unfold moves
  split
  · rfl
  · rename_i hne
    have hb : baseline { c with status := s } = false :=
      Bool.not_eq_true _ ▸ fun hb => hne (h hb).symm
    simp [lastTopology, hb]

/-- One move of Robin. -/
theorem Memory.robin {st : Store} {key : NamespacedName} {c : RedkeyConfig}
    {s : RedkeyConfigStatus} {journal : List Happening}
    (h : Memory st.configs (lastTopology journal) recorded)
    (hk : (st.configs.map RedkeyConfig.key).Nodup) (ha : Ascending st.configs)
    (hsh : Shaped st.configs) (hc : st.config key = some c)
    (hm : robinMay st.configs c s.configPhase = true)
    (hr : c.spec.primaries = 0 → c.phase ≠ .inProgress → s.configPhase = .inProgress →
      ∀ a ∈ st.configs, baseline a = true → a.topology = recorded) :
    Memory (st.setConfigStatus key s).configs (lastTopology (moves c s ++ journal)) recorded := by
  obtain ⟨hmem, hkey⟩ := Store.config_mem hc
  have hother : ∀ d ∈ st.configs, d ≠ c → d.key ≠ key := fun d hd hdc he =>
    hdc (Store.eq_of_config hk hc hd he)
  have hspec : ∀ d : RedkeyConfig,
      (if d.key == key then { d with status := s } else d).spec = d.spec := fun d => by
    split <;> rfl
  by_cases hnew : baseline { c with status := s } = true ∧ s.configPhase ≠ c.phase
  · obtain ⟨hb, hne⟩ := hnew
    have hs : s.configPhase = .applied := by simpa using (Bool.and_eq_true_iff.mp hb).1
    have hp : c.phase = .inProgress :=
      (robinMay_applied (hs ▸ hm)).resolve_left fun hp => hne (hs.trans hp.symm)
    have hlast : lastTopology (moves c s ++ journal) = some c.topology := by
      simp [moves, hne.symm, lastTopology, hb]
    rw [hlast]
    refine Memory.apply hmem hspec (by simpa [hkey] using hb) fun d hd hdc hbd => ?_
    simp only [beq_iff_eq, if_neg (hother d hd hdc)] at hbd
    exact hsh.lt_inProgress ha hmem hp hd hdc (not_queued_of_baseline hbd)
  · have hsame : baseline { c with status := s } = true → s.configPhase = c.phase :=
      fun hb => not_not.mp fun hne => hnew ⟨hb, hne⟩
    rw [lastTopology_moves c s journal hsame]
    refine h.move hspec (fun d hd => ?_) fun d hd hhd => ?_
    · by_cases hdc : d = c
      · subst hdc
        simp only [hkey, beq_self_eq_true, ite_true]
        by_cases hp : s.configPhase = d.phase
        · simp [baseline, RedkeyConfig.phase, hp]
        · have hn : baseline d = false := Bool.not_eq_true _ ▸ fun hb =>
            hp (robinMay_finished hm (finished_of_baseline hb))
          rw [hn]
          exact Bool.not_eq_true _ ▸ fun hb => hp (hsame hb)
      · simp [hother d hd hdc]
    · by_cases hdc : d = c
      · subst hdc
        simp only [hkey, beq_self_eq_true, ite_true, halting, Bool.and_eq_true, beq_iff_eq,
          Bool.or_eq_true] at hhd ⊢
        obtain ⟨h0, hps⟩ := hhd
        by_cases hp : d.phase = .inProgress
        · exact .inl ⟨h0, .inl hp⟩
        · obtain hps | hps := hps
          · exact .inr (hr h0 hp hps)
          · have hps : s.configPhase = .applied := hps
            exact .inl ⟨h0, (robinMay_applied (hps ▸ hm)).symm⟩
      · rw [beq_eq_false_iff_ne.mpr (hother d hd hdc)] at hhd
        exact .inl hhd

/-! ## Runs -/

/-- Robin takes up a scale-down only when the topology of every Applied config
with primaries is the recorded one. -/
def recordedFirst : Terms server where
  env e w := match e with
    | .robin key s => (w.store.config key).all fun c =>
      !(c.spec.primaries == 0 && c.phase != .inProgress && s.configPhase == .inProgress) ||
        (parent w.store c).all fun rk => w.store.configs.all fun a =>
          !baseline a || a.topology == rk.status.lastApplied
    | _ => true
  call _ _ _ := true

def recordingProtocol : Terms server := protocol.and recordedFirst

def Remembers (req : NamespacedName) (w : World) : Prop :=
  ∀ rk, w.store.redkeys req = some rk →
    Memory w.store.configs (lastTopology w.journal) rk.status.lastApplied

/-- What a Reconcile that deletes configs knows: pruning keeps an Applied config,
and a scale-down that is finished had its topology recorded. -/
def Knows (req : NamespacedName) : Point → World → Prop
  | .pruning _ older kept, _ => older = [] ∨ ∃ a ∈ kept, a.phase = .applied
  | .deleting _ _, w => ∀ rk, w.store.redkeys req = some rk → ∀ t, lastTopology w.journal = some t →
      Uniform w.store.configs t rk.status.lastApplied
  | _, _ => True

/-- Every Redkey of the request has the topology recorded that it had. -/
def SameRecord (req : NamespacedName) (w w' : World) : Prop :=
  ∀ rk', w'.store.redkeys req = some rk' → ∃ rk, w.store.redkeys req = some rk ∧
    rk'.status.lastApplied = rk.status.lastApplied

theorem SameRecord.of_eq (h : w'.store.redkeys = w.store.redkeys) : SameRecord req w w' :=
  fun rk hrk => ⟨rk, h ▸ hrk, rfl⟩

theorem Remembers.keep (h : Remembers req w) (hr : SameRecord req w w')
    (hc : w'.store.configs = w.store.configs) (hj : w'.journal = w.journal) : Remembers req w' := by
  intro rk' hrk'
  obtain ⟨rk, hrk, he⟩ := hr rk' hrk'
  rw [hc, hj, he]
  exact h rk hrk

theorem Knows.keep (h : Knows req p w) (hr : SameRecord req w w')
    (hc : w'.store.configs = w.store.configs) (hj : w'.journal = w.journal) : Knows req p w' := by
  cases p with
  | pruning rk older kept => exact h
  | deleting cluster items =>
    intro rk' hrk' t ht
    obtain ⟨rk, hrk, he⟩ := hr rk' hrk'
    rw [hc, he]
    exact h rk hrk t (hj ▸ ht)
  | _ => trivial

/-- A status update records nothing new, or the topology of a stored config. -/
theorem recorded_update (hv : Versions req w) (hs : Sourced req p w) (ht : Tracks p w)
    {rk cur : Redkey} (hi : Issues req p (.write (.updateStatus rk)))
    (hc : w.store.redkeys rk.key = some cur) (hver : rk.resourceVersion = cur.resourceVersion) :
    rk.status.lastApplied = cur.status.lastApplied ∨
      ∃ a ∈ w.store.configs, baseline a = true ∧ rk.status.lastApplied = a.topology := by
  obtain ⟨-, ⟨cluster, configs, active, now, rfl, ha, rfl⟩ | ⟨now, rfl, rfl⟩⟩ :=
    hi.of_accepted hv hs hc hver
  · obtain h | ⟨-, hp, hpos, h⟩ := lastApplied_aggregatedStatus now cur active cluster.generation
    · exact .inl h
    · obtain ⟨b, hb, hab⟩ := List.Forall₂.mem_right ht (selectActiveConfig_mem ha)
      have hbp : b.phase = .applied := hab.applied hp
      refine .inr ⟨b, hb, ?_, h.trans ?_⟩
      · simp [baseline, hbp, hab.spec, hpos]
      · rw [RedkeyConfig.topology, RedkeyConfig.topology, hab.spec]
  · exact .inl rfl

theorem Remembers.effect (h : Remembers req w) (hkn : Knows req p w) (ho : Orderly w)
    (ht : Tracks p w) (hv : Versions req w) (hs : Sourced req p w)
    (hk : (w.store.configs.map RedkeyConfig.key).Nodup) (he : Effect T req p w w') :
    Remembers req w' := by
  cases he with
  | quiet hq => exact h.keep (.of_eq hq.redkeys) hq.configs hq.journal
  | sawRedkey => exact h.keep (.of_eq rfl) rfl rfl
  | sawConfigs => exact h.keep (.of_eq rfl) rfl rfl
  | updated hi ok hc hver =>
    intro rk' hrk'
    obtain ⟨rfl, hcur⟩ | hrk' := hv.store_update hc (precedes_withStatus _ _) hrk'
    · obtain he | ⟨a, ha, hb, he⟩ := recorded_update hv hs ht hi hc hver
      · exact he ▸ h _ hcur
      · exact he ▸ (h _ hcur).record ha hb
    · exact h rk' hrk'
  | created hi ok hn =>
    obtain ⟨cluster, configs, rfl, -, rfl⟩ := hi.of_createConfig
    exact fun rk hrk => (h rk hrk).create rfl
  | @deleted key x o hi ok hc =>
    obtain ⟨hx, hxk⟩ := Store.config_mem hc
    intro rk hrk
    obtain ⟨cluster, c, older, kept, rfl, rfl⟩ | ⟨cluster, c, items, rfl, rfl⟩ := hi.of_deleteConfig
    · obtain ⟨d, hd, hcd, hrest, -⟩ := Aged.removeConfig ht.2 hk
      rw [hc, Option.some.injEq] at hd
      subst hd
      have hasc := List.pairwise_cons.mp (ht.2.ascending ho.ascending)
      refine (h rk hrk).prune (c := x) (fun e he => (Store.mem_removeConfig.mp he).1) (fun e he => ?_)
        (fun e he => ?_) ?_
      · by_cases hek : e.key = c.key
        · exact .inl (Store.eq_of_config hk hc he hek)
        · exact .inr (Store.mem_removeConfig.mpr ⟨he, hek⟩)
      · obtain ⟨e', he', hee⟩ := hrest.mem_left he
        rw [hee.sequence, hcd.sequence]
        exact hasc.1 e' he'
      · obtain ⟨a, ha, hp⟩ := hkn.resolve_left (List.cons_ne_nil _ _)
        obtain ⟨b, hb, hab⟩ := hrest.mem_right (List.mem_append_right _ ha)
        exact ⟨b, hb, hab.applied hp⟩
    · exact (h rk hrk).sublist (hkn rk hrk) fun e he => (Store.mem_removeConfig.mp he).1

theorem Knows.silent (h : Knows req p w) (hm : Remembers req w) (ht : Tracks p w)
    (hq : Silent p q) : Knows req q w := by
  cases hq with
  | reuse => exact take_lastAppliedIndex _
  | steady =>
    have hn : ∀ c, c ∉ w.store.configs := fun c hc => by
      obtain ⟨d, hd, -⟩ := ht.2.mem_left hc
      cases hd
    exact fun rk hrk t hl =>
      ⟨(hm rk hrk).gone (fun a ha => absurd ha (hn a)) t hl, fun a ha => absurd ha (hn a)⟩
  | _ => trivial

/-- A finished scale-down is the last thing that was asked of Robin. -/
theorem Remembers.dismantle {cluster : Redkey} {configs : List RedkeyConfig} (h : Remembers req w)
    (ho : Orderly w) (hd : Dismantles cluster configs) (ha : Aged configs w.store.configs)
    {rk : Redkey} (hrk : w.store.redkeys req = some rk) {t : Topology}
    (ht : lastTopology w.journal = some t) : Uniform w.store.configs t rk.status.lastApplied := by
  obtain ⟨-, z, hl, h0, hp⟩ := hd
  obtain ⟨z', hz', hzz⟩ := ha.mem_right (List.mem_of_getLast? hl)
  have hp' : z'.phase = .applied := hzz.applied hp
  have h0' : z'.spec.primaries = 0 := by rw [hzz.spec, h0]
  refine (h rk hrk).halted z' hz' (by simp [halting, h0', hp']) (fun a hmem hb => ?_) t ht
  obtain ⟨a', ha', haa⟩ := ha.mem_left hmem
  have hle : a.sequence ≤ z'.sequence := by
    rw [haa.sequence, hzz.sequence]
    exact (ha.ascending ho.ascending).le_getLast hl a' ha'
  refine lt_of_le_of_ne hle fun he => ?_
  rw [ho.ascending.eq_of_sequence hmem hz' he] at hb
  simp [baseline, h0'] at hb

theorem Knows.next (h : Knows req p w) (hm : Remembers req w) (ho : Orderly w) (ht : Tracks p w)
    {c : Call} {o : Outcome} {res : Except ApiError (Reply c)} (hq : Next req p c res q)
    (hw : answer c o w = some (res, w')) : Knows req q w' := by
  cases hq with
  | stay hi hc =>
    have hquiet := quiet_answer hc hw
    exact h.keep (.of_eq hquiet.redkeys) hquiet.configs hquiet.journal
  | relist => exact take_lastAppliedIndex _
  | prune => exact .inr (h.resolve_left (List.cons_ne_nil _ _))
  | relistAll hd =>
    obtain ⟨i, st, -, -, rfl⟩ := answer_listConfigs_ok hw
    exact fun rk hrk t hl => hm.dismantle ho hd ht.2 hrk hl
  | delete hr =>
    obtain rfl | rfl := hr
    · obtain ⟨st, hst, rfl⟩ := answer_write_ok hw
      obtain ⟨x, hx, rfl⟩ := apply_deleteConfig hst
      intro rk hrk t hl
      simp only [happenings, hx] at hl
      obtain ⟨hrec, hall⟩ := h rk hrk t hl
      exact ⟨hrec, fun a ha => hall a (Store.mem_removeConfig.mp ha).1⟩
    · obtain ⟨rfl, -⟩ := answer_write_rejected hw (by simp)
      exact h
  | _ => trivial

/-- A finished config is not moved, so nothing new is to be recorded. -/
theorem Knows.robin (h : Knows req p w) (ht : Tracks p w) {key : NamespacedName} {c : RedkeyConfig}
    {s : RedkeyConfigStatus} (hc : w.store.config key = some c)
    (hm : robinMay w.store.configs c s.configPhase = true)
    (hk : (w.store.configs.map RedkeyConfig.key).Nodup) :
    Knows req p (w.commit (w.store.setConfigStatus key s) (moves c s)) := by
  cases p with
  | pruning rk older kept => exact h
  | deleting cluster items =>
    have hfin := (ht c (Store.config_mem hc).1).1
    have hp := robinMay_finished hm hfin
    have hj : moves c s = [] := by simp [moves, hp]
    rw [hj]
    intro rk hrk t hl
    obtain ⟨hrec, hall⟩ := h rk hrk t hl
    refine ⟨hrec, fun a ha hb => ?_⟩
    obtain ⟨b, hmem, hba⟩ := (aged_setConfigStatus hk hc fun _ => hp).mem_left ha
    have hbase : baseline b = true := by
      rw [baseline, ← hba.final (ht b hmem).1, ← hba.spec]
      exact hb
    rw [RedkeyConfig.topology, hba.spec]
    exact hall b hmem hbase
  | _ => trivial

theorem Runs.remembers (h : Runs recordingProtocol req w₀ p w) (hf : Fresh req w₀) :
    Remembers req w ∧ Knows req p w := by
  induction h using Runs.induct with
  | init =>
    refine ⟨fun rk _ => ⟨?_, ?_, ?_⟩, trivial⟩ <;> simp [hf.configs, hf.journal, lastTopology]
  | env p e w w' h ok hw ih =>
    have hv := h.versions hf.versions
    have hprov := h.provenance hf
    obtain ⟨ho, ht⟩ := (h.weaken (protocol.and_left _)).orderly hf
    have ok' := (protocol.and_left recordedFirst).env _ _ ok
    cases e with
    | update key spec =>
      obtain ⟨rk, hrk, -, rfl⟩ := env_update hw
      have hsame : SameRecord req w (w.commit (w.store.setRedkey (rk.withSpec spec)) []) := by
        intro rk' hrk'
        obtain ⟨rfl, hcur⟩ | hrk' := hv.store_update hrk (precedes_withSpec _ _) hrk'
        · exact ⟨rk, hcur, rfl⟩
        · exact ⟨rk', hrk', rfl⟩
      exact ⟨ih.1.keep hsame rfl rfl, ih.2.keep hsame rfl rfl⟩
    | robin key s =>
      obtain ⟨c, hc, rfl⟩ := env_robin hw
      have hm := robinMay_of_protocol ok' hc
      have hk := hprov.keys _ w.store_mem_history
      refine ⟨fun rk hrk => ?_, ih.2.robin ht hc hm hk⟩
      refine (ih.1 rk hrk).robin hk ho.ascending ho.shaped hc hm fun h0 hp hs a ha hb => ?_
      have hmem := (Store.config_mem hc).1
      have hpar : parent w.store c = some rk := by
        rw [parent, hprov.label hv w.store_mem_history hmem, hprov.key hv w.store_mem_history hmem]
        exact hrk
      have hrec := (protocol.and_right recordedFirst).env _ _ ok
      simp only [recordedFirst, hc, Option.all_some, h0, hs, hpar] at hrec
      have := (Bool.or_eq_true _ _ ▸ hrec).resolve_left (by simp [hp])
      simpa [hb] using List.all_eq_true.mp this a ha
    | collect key => exact absurd hw (hprov.not_collected hv)
  | enter p w h ih => exact ⟨ih.1.keep (.of_eq rfl) rfl rfl, trivial⟩
  | silent p q w h hq ih =>
    have ht := ((h.weaken (protocol.and_left _)).orderly hf).2
    exact ⟨ih.1, ih.2.silent ih.1 ht hq⟩
  | call p q w w' c o res h hq ok hw ih =>
    obtain ⟨ho, ht⟩ := (h.weaken (protocol.and_left _)).orderly hf
    have hk := (h.provenance hf).keys _ w.store_mem_history
    exact ⟨ih.1.effect ih.2 ho ht (h.versions hf.versions) (h.sourced hf.cursors) hk
      (hq.issues.effect ok hw), ih.2.next ih.1 ho ht hq hw⟩

/-! ## Completed teardowns -/

/-- In every run in which Robin takes up no scale-down before the topologies it
has applied are recorded, the last one is recorded once all configs are gone. -/
theorem teardown_records_topology {r : RedkeyReconciler} {s : State server Result} {rk : Redkey}
    {t : Topology} (hf : Fresh req w₀)
    (h : Reaches recordingProtocol (reconcile r req) ⟨w₀, none⟩ s)
    (hrk : s.world.store.redkeys req = some rk) (hc : s.world.store.configs = [])
    (ht : lastTopology s.world.journal = some t) : rk.status.lastApplied = t := by
  obtain ⟨p, hp⟩ := reconcile_runs h
  exact ((hp.remembers hf).1 rk hrk).gone (by simp [hc]) t ht

/-- The status `updateStatusScaledToZero` has left. -/
def scaledToZero (rk : Redkey) : Bool :=
  (findStatusCondition rk.status.conditions "Ready").any fun c => c.reason == "ScaledToZero"

/-- The sample cluster is torn down after it had the given topology. -/
def tornDownAfter (t : Topology) (w : World) : Bool :=
  (w.store.redkeys sampleKey).any scaledToZero && w.store.configs.isEmpty &&
    lastTopology w.journal == some t

theorem of_tornDownAfter {t : Topology} (h : tornDownAfter t w = true) :
    ∃ rk, w.store.redkeys sampleKey = some rk ∧ scaledToZero rk = true ∧ w.store.configs = [] ∧
      lastTopology w.journal = some t := by
  simp only [tornDownAfter, Bool.and_eq_true, List.isEmpty_iff, beq_iff_eq] at h
  obtain ⟨rk, hrk, hz⟩ := (Option.any_eq_true _ _).mp h.1.1
  exact ⟨rk, hrk, hz, h.1.2, h.2⟩

/-- The first config is applied and recorded before the cluster is scaled down. -/
def recordThenHalt : List (Move server) :=
  undisturbed ++ [robinMoves 1 .inProgress, robinMoves 1 .applied] ++ undisturbed ++
    [scaleTo 0] ++ undisturbed ++ [robinMoves 2 .inProgress, robinMoves 2 .applied] ++ undisturbed

set_option maxRecDepth 100000 in
theorem teardown_records_topology_sample :
    ∃ s rk, Reaches recordingProtocol sampleReconcile ⟨sampleWorld 3, none⟩ s ∧
      s.world.store.redkeys sampleKey = some rk ∧ s.world.store.configs = [] ∧
      rk.status.lastApplied = (3, 0) := by
  obtain ⟨s, hs, ht⟩ : ∃ s, Reaches recordingProtocol sampleReconcile ⟨sampleWorld 3, none⟩ s ∧
      tornDownAfter (3, 0) s.world = true :=
    exists_reaches_of_play recordThenHalt _ (by decide +kernel)
  obtain ⟨rk, hrk, -, hc, hl⟩ := of_tornDownAfter ht
  exact ⟨s, rk, hs, hrk, hc, teardown_records_topology (fresh_sampleWorld 3) hs hrk hc hl⟩

/-- Users never make the cluster ephemeral. -/
def persistent : Terms server where
  env e _ := match e with
    | .update _ spec => !spec.ephemeral
    | _ => true
  call _ _ _ := true

/-- The cluster is scaled down while Robin works on its first config. Robin
applies that config and then the scale-down; no Reconcile aggregates in between. -/
def haltInFlight : List (Move server) :=
  undisturbed ++ [robinMoves 1 .inProgress, scaleTo 0] ++ undisturbed ++
    [robinMoves 1 .applied, robinMoves 2 .inProgress, robinMoves 2 .applied] ++ undisturbed

set_option maxRecDepth 100000 in
theorem teardown_can_lose_topology :
    ¬ ∀ (r : RedkeyReconciler) (req : NamespacedName) (w₀ : World) (s : State server Result)
      (rk : Redkey) (t : Topology), Fresh req w₀ →
      (∀ rk, w₀.store.redkeys req = some rk → rk.spec.ephemeral = false) →
      Reaches (protocol.and persistent) (reconcile r req) ⟨w₀, none⟩ s →
      s.world.store.redkeys req = some rk → scaledToZero rk = true → s.world.store.configs = [] →
      lastTopology s.world.journal = some t → rk.status.lastApplied = t := by
  intro hall
  obtain ⟨s, hs, ht⟩ : ∃ s,
      Reaches (protocol.and persistent) sampleReconcile ⟨sampleWorld 3, none⟩ s ∧
        (tornDownAfter (3, 0) s.world && (s.world.store.redkeys sampleKey).all
          fun rk => rk.status.lastApplied == (0, 0)) = true :=
    exists_reaches_of_play haltInFlight _ (by decide +kernel)
  obtain ⟨ht, hzero⟩ := Bool.and_eq_true_iff.mp ht
  obtain ⟨rk, hrk, hz, hc, hl⟩ := of_tornDownAfter ht
  have := hall _ _ _ s rk _ (fresh_sampleWorld 3) (persistent_sampleWorld 3) hs hrk hz hc hl
  simp [hrk, this] at hzero

end RedkeyOperator.Protocol
