import RedkeyOperator.Protocol.Baseline
import RedkeyOperator.Protocol.Generations

/-! # A Redkey created anew

Configs are found by the name of their cluster, and only the owner reference
tells those of a deleted Redkey from those of a Redkey created again under its
name. Until they are collected, the new Redkey's configs are numbered after
them, their annotations are compared with its generation, and its status may be
taken from them. -/
namespace RedkeyOperator.Protocol
open RedkeyOperator.Api RedkeyOperator.Kube RedkeyOperator.Interleave RedkeyOperator.Controller

variable {T : Terms server} {req : NamespacedName} {uid : String} {w₀ w w' : World} {p q : Point}
  {r : RedkeyReconciler} {s : State server Result}

/-- `c` belongs to the Redkey with this UID. -/
abbrev Owned (uid : String) (c : RedkeyConfig) : Prop := c.metadata.owner = some uid

/-- A Redkey created under the name of a deleted one, some of whose configs are
still there, whatever their generations, sequences and phases. -/
structure Recreated (req : NamespacedName) (w : World) : Prop extends Newborn req w where
  keys : (w.store.configs.map RedkeyConfig.key).Nodup
  named : ∀ c ∈ w.store.configs, c.key = ⟨req.namespace_, configName req.name c.sequence⟩
  labelled : ∀ c ∈ w.store.configs, c.metadata.labels.get clusterLabel = some req.name
  others : ∀ c ∈ w.store.configs, ∀ rk, w.store.redkeys req = some rk → ¬ Owned rk.uid c
  listed : w.listed = none

/-- The highest config listed is the Redkey's own, or asks for a new one. -/
def heeds (cluster : Redkey) (items : List RedkeyConfig) : Bool :=
  match (sortBySequence items).getLast? with
  | none => true
  | some c => decide (Owned cluster.uid c) || needsNewConfig cluster (some c)

theorem needsNewConfig_eq_false_iff {cluster : Redkey} {c : RedkeyConfig} :
    needsNewConfig cluster (some c) = false ↔
      (∃ g, annotatedGeneration c = some g ∧ (cluster.generation : Int) ≤ g) ∨
        cluster.generation ≤ cluster.status.observedGeneration := by
  simp only [needsNewConfig, Option.bind_some]
  cases hg : annotatedGeneration c with
  | none => simp
  | some g => by_cases hle : (cluster.generation : Int) ≤ g <;> simp [hle]

/-- A config of another Redkey is taken for the current one if its annotation is a
number that is not below the generation read, or the status read has observed that
generation. -/
theorem heeds_eq_false_iff {cluster : Redkey} {items : List RedkeyConfig} :
    heeds cluster items = false ↔
      ∃ c, (sortBySequence items).getLast? = some c ∧ ¬ Owned cluster.uid c ∧
        ((∃ g, annotatedGeneration c = some g ∧ (cluster.generation : Int) ≤ g) ∨
          cluster.generation ≤ cluster.status.observedGeneration) := by
  unfold heeds
  cases hlast : (sortBySequence items).getLast? with
  | none => simp
  | some c =>
    simp only [Bool.or_eq_false_iff, decide_eq_false_iff_not, needsNewConfig_eq_false_iff,
      Option.some.injEq, exists_eq_left']

/-- All configs are the Redkey's own, or one is in progress and no other
Redkey's config is. -/
def spares (uid : String) (configs : List RedkeyConfig) : Bool :=
  configs.all (fun c => decide (Owned uid c)) ||
    (configs.any fun c => c.phase == .inProgress) &&
      configs.all fun c => c.phase != .inProgress || decide (Owned uid c)

/-! ## Old configs below new ones -/

/-- Configs of other Redkeys come before the Redkey's own. -/
def Layered (uid : String) (configs : List RedkeyConfig) : Prop :=
  ∀ c ∈ configs, ∀ d ∈ configs, ¬ Owned uid c → Owned uid d → c.sequence < d.sequence

theorem Layered.subset {cs ds : List RedkeyConfig} (h : Layered uid cs) (hs : ds ⊆ cs) :
    Layered uid ds := fun c hc d hd => h c (hs hc) d (hs hd)

/-- The active config of a sorted list is the Redkey's own. -/
theorem owned_active_iff {configs : List RedkeyConfig} {active : RedkeyConfig}
    (hs : configs.Pairwise fun a b => a.sequence ≤ b.sequence) (hl : Layered uid configs)
    (ha : selectActiveConfig configs = some active) :
    Owned uid active ↔ spares uid configs = true := by
  have hspares : spares uid configs = true ↔ (∀ c ∈ configs, Owned uid c) ∨
      (∃ c ∈ configs, c.phase = .inProgress) ∧
        ∀ c ∈ configs, c.phase = .inProgress → Owned uid c := by
    simp [spares, imp_iff_not_or]
  rw [hspares]
  have hmem := selectActiveConfig_mem ha
  obtain ⟨front, back, rfl, hfront, hact⟩ := selectActiveConfig_split ha
  have hback : Owned uid active → ∀ c ∈ back, Owned uid c := by
    intro ho c hc
    by_contra hn
    have hle := (List.pairwise_cons.mp (List.pairwise_append.mp hs).2.1).1 c hc
    have hlt := hl c (List.mem_append_right _ (List.mem_cons_of_mem _ hc)) active hmem hn ho
    omega
  constructor
  · intro ho
    obtain hp | ⟨rfl, -⟩ := hact
    · refine .inr ⟨⟨active, hmem, hp⟩, fun c hc hcp => ?_⟩
      rcases List.mem_append.mp hc with hc | hc
      · exact absurd hcp (hfront c hc)
      · rcases List.mem_cons.mp hc with rfl | hc
        · exact ho
        · exact hback ho c hc
    · refine .inl fun c hc => ?_
      rcases List.mem_cons.mp hc with rfl | hc
      · exact ho
      · exact hback ho c hc
  · rintro (hall | ⟨⟨c, hc, hp⟩, hin⟩)
    · exact hall active hmem
    · exact hin active hmem (hact.resolve_right fun hno => hno.2 c hc hp)

/-- Configs at a later time: Robin has written statuses, and some of other
Redkeys are gone. -/
structure Drifts (uid : String) (cs ds : List RedkeyConfig) : Prop where
  origin : ∀ d ∈ ds, ∃ c ∈ cs, Kin c d
  kept : ∀ c ∈ cs, Owned uid c → ∃ d ∈ ds, Kin c d

theorem Drifts.of_mem_iff {cs ds : List RedkeyConfig} (h : ∀ c, c ∈ ds ↔ c ∈ cs) :
    Drifts uid cs ds :=
  ⟨fun d hd => ⟨d, (h d).mp hd, .refl d⟩, fun c hc _ => ⟨c, (h c).mpr hc, .refl c⟩⟩

theorem Drifts.of_eq {cs ds : List RedkeyConfig} (h : ds = cs) : Drifts uid cs ds :=
  .of_mem_iff fun c => by rw [h]

theorem Kin.owned {c d : RedkeyConfig} (h : Kin c d) : Owned uid d ↔ Owned uid c := by
  rw [Owned, Owned, h.metadata]

theorem Drifts.trans {cs ds es : List RedkeyConfig} (h : Drifts uid cs ds) (h' : Drifts uid ds es) :
    Drifts uid cs es := by
  refine ⟨fun e he => ?_, fun c hc ho => ?_⟩
  · obtain ⟨d, hd, hde⟩ := h'.origin e he
    obtain ⟨c, hc, hcd⟩ := h.origin d hd
    exact ⟨c, hc, hcd.trans hde⟩
  · obtain ⟨d, hd, hcd⟩ := h.kept c hc ho
    obtain ⟨e, he, hde⟩ := h'.kept d hd (hcd.owned.mpr ho)
    exact ⟨e, he, hcd.trans hde⟩

theorem Layered.later {cs ds : List RedkeyConfig} (h : Layered uid cs)
    (ho : ∀ d ∈ ds, ∃ c ∈ cs, Kin c d) : Layered uid ds := by
  intro a ha b hb hna hob
  obtain ⟨c, hc, hca⟩ := ho a ha
  obtain ⟨d, hd, hdb⟩ := ho b hb
  rw [hca.sequence, hdb.sequence]
  exact h c hc d hd (mt hca.owned.mpr hna) (hdb.owned.mp hob)

theorem Kin.madeFrom {rk : Redkey} {c d : RedkeyConfig} (h : Kin c d) (hm : MadeFrom rk c) :
    MadeFrom rk d := by
  rw [h.same]
  exact hm.withStatus _

/-! ## The configs in the store -/

structure Strata (req : NamespacedName) (uid : String) (w : World) : Prop where
  keys : (w.store.configs.map RedkeyConfig.key).Nodup
  named : ∀ c ∈ w.store.configs, c.key = ⟨req.namespace_, configName req.name c.sequence⟩
  labelled : ∀ c ∈ w.store.configs, c.metadata.labels.get clusterLabel = some req.name
  made : ∀ c ∈ w.store.configs, Owned uid c → ∃ rk, Sent req w rk c.sequence ∧ MadeFrom rk c
  layered : Layered uid w.store.configs
  listed : ∀ items, w.listed = some items → Layered uid items

namespace Strata

theorem sequences_nodup (h : Strata req uid w) :
    (w.store.configs.map RedkeyConfig.sequence).Nodup := by
  refine List.Nodup.of_map (fun seq => (⟨req.namespace_, configName req.name seq⟩ : NamespacedName)) ?_
  have hkeys := h.keys
  rw [List.map_congr_left fun c hc => h.named c hc] at hkeys
  rwa [List.map_map]

/-- The label selects every config. -/
theorem configsOf (h : Strata req uid w) :
    w.store.configsOf clusterLabel req.namespace_ req.name = w.store.configs := by
  refine List.filter_eq_self.mpr fun c hc => ?_
  simp [h.named c hc, h.labelled c hc]

/-- Fewer configs, with what Robin made of their status. -/
theorem later (h : Strata req uid w) (hh : w.Extends w')
    (hj : ∀ x ∈ w.journal, x ∈ w'.journal)
    (hk : (w'.store.configs.map RedkeyConfig.key).Sublist (w.store.configs.map RedkeyConfig.key))
    (ho : ∀ d ∈ w'.store.configs, ∃ c ∈ w.store.configs, Kin c d)
    (hl : ∀ items, w'.listed = some items → Layered uid items) : Strata req uid w' where
  keys := hk.nodup h.keys
  named d hd := by
    obtain ⟨c, hc, hcd⟩ := ho d hd
    rw [hcd.key, hcd.sequence]
    exact h.named c hc
  labelled d hd := by
    obtain ⟨c, hc, hcd⟩ := ho d hd
    rw [hcd.metadata]
    exact h.labelled c hc
  made d hd hod := by
    obtain ⟨c, hc, hcd⟩ := ho d hd
    obtain ⟨rk, hs, hm⟩ := h.made c hc (hcd.owned.mp hod)
    exact ⟨rk, hcd.sequence ▸ hs.mono hh hj, hcd.madeFrom hm⟩
  layered := h.layered.later ho
  listed := hl

theorem create (h : Strata req uid w) {cluster : Redkey} {seq : Nat} (hk : cluster.key = req)
    (hu : cluster.uid = uid) (hr : ∃ st ∈ w.history, st.redkeys req = some cluster)
    (hlt : ∀ d ∈ w.store.configs, d.sequence < seq)
    (hn : w.store.config (newConfig cluster seq).key = none) :
    Strata req uid (w.commit { w.store with configs := w.store.configs ++ [newConfig cluster seq] }
      [.created (newConfig cluster seq)]) := by
  have hm := madeFrom_newConfig cluster seq
  have cases : ∀ {d}, d ∈ w.store.configs ++ [newConfig cluster seq] →
      d ∈ w.store.configs ∨ d = newConfig cluster seq := fun hd => by simpa using hd
  refine ⟨?_, fun d hd => ?_, fun d hd => ?_, fun d hd ho => ?_, fun c hc d hd hnc hod => ?_, h.listed⟩
  · simp only [World.store_commit, List.map_append, List.map_cons, List.map_nil]
    refine List.nodup_append.mpr ⟨h.keys, by simp, ?_⟩
    rintro a ha b hb rfl
    obtain ⟨d, hd, rfl⟩ := List.mem_map.mp ha
    exact Store.config_eq_none.mp hn d hd (List.mem_singleton.mp hb)
  · obtain hd | rfl := cases hd
    · exact h.named d hd
    · rw [hm.key, hk]
  · obtain hd | rfl := cases hd
    · exact h.labelled d hd
    · rw [hm.label, hk]
  · obtain hd | rfl := cases hd
    · obtain ⟨rk, hs, hmk⟩ := h.made d hd ho
      exact ⟨rk, hs.mono (.inr rfl) fun x hx => List.mem_cons_of_mem _ hx, hmk⟩
    · obtain ⟨st, hst, hrk⟩ := hr
      exact ⟨cluster, ⟨⟨st, List.mem_append_left _ hst, hrk⟩, List.mem_cons_self⟩, hm⟩
  · obtain hc | rfl := cases hc
    · obtain hd | rfl := cases hd
      · exact h.layered c hc d hd hnc hod
      · exact hlt c hc
    · exact absurd (hm.owner.trans (by rw [hu])) hnc

end Strata

/-- What the environment does to the configs of a Redkey that is there. -/
theorem drifts_env {e : Ev} (hs : Strata req uid w) {cur : Redkey}
    (hcur : w.store.redkeys req = some cur) (hu : cur.uid = uid) (he : env e w = some w') :
    Drifts uid w.store.configs w'.store.configs ∧
      (w'.store.configs.map RedkeyConfig.key).Sublist (w.store.configs.map RedkeyConfig.key) ∧
      w'.history = w.history ++ [w'.store] ∧ ∀ x ∈ w.journal, x ∈ w'.journal := by
  cases e with
  | update key spec =>
    obtain ⟨rk, -, -, rfl⟩ := env_update he
    exact ⟨.of_eq rfl, .refl _, rfl, fun x hx => hx⟩
  | robin key st =>
    obtain ⟨c, -, rfl⟩ := env_robin he
    refine ⟨⟨fun d hd => ?_, fun c hc _ => ?_⟩, by simp [Store.keys_setConfigStatus], rfl,
      fun x hx => List.mem_append_right _ hx⟩
    · obtain ⟨b, hb, ⟨-, rfl⟩ | ⟨-, rfl⟩⟩ := Store.mem_setConfigStatus hd <;> exact ⟨_, hb, ⟨rfl⟩⟩
    · refine ⟨_, List.mem_map.mpr ⟨c, hc, rfl⟩, ?_⟩
      split
      · exact ⟨rfl⟩
      · exact .refl c
  | collect key =>
    obtain ⟨c, hc, hn, rfl⟩ := env_collect he
    refine ⟨⟨fun d hd => ⟨d, (Store.mem_removeConfig.mp hd).1, .refl d⟩, fun d hd ho => ?_⟩,
      List.filter_sublist.map _, rfl, fun x hx => List.mem_cons_of_mem _ hx⟩
    -- the owner of an own config is there
    refine ⟨d, Store.mem_removeConfig.mpr ⟨hd, fun hdk => ?_⟩, .refl d⟩
    obtain rfl := Store.eq_of_config hs.keys hc hd hdk
    refine hn cur ?_ (hu ▸ ho)
    simp [parent, hs.labelled d hd, hs.named d hd, hcur]

/-! ## Who is on top -/

/-- `t` is the highest config, and was created from `rk`. -/
structure IsTop (st : Store) (rk : Redkey) (t : RedkeyConfig) : Prop where
  mem : t ∈ st.configs
  made : MadeFrom rk t
  highest : ∀ d ∈ st.configs, d.sequence ≤ t.sequence

/-- None of the configs is the Redkey's own. -/
def Alien (uid : String) (st : Store) : Prop := ∀ c ∈ st.configs, ¬ Owned uid c

def Judged (uid : String) (st : Store) (rk : Redkey) : Prop := (∃ t, IsTop st rk t) ∨ Alien uid st

section
variable {st st' : Store} {rk rk' : Redkey} {t : RedkeyConfig}

theorem IsTop.later (h : IsTop st rk t) (hu : rk.uid = uid)
    (hd : Drifts uid st.configs st'.configs) : ∃ t', IsTop st' rk t' ∧ t'.key = t.key := by
  obtain ⟨t', ht', htt⟩ := hd.kept t h.mem (h.made.owner.trans (by rw [hu]))
  refine ⟨t', ⟨ht', htt.madeFrom h.made, fun d hd' => ?_⟩, htt.key⟩
  obtain ⟨c, hc, hcd⟩ := hd.origin d hd'
  rw [hcd.sequence, htt.sequence]
  exact h.highest c hc

theorem IsTop.remove (h : IsTop st rk t) {key : NamespacedName} (hk : t.key ≠ key) :
    IsTop (st.removeConfig key) rk t :=
  ⟨Store.mem_removeConfig.mpr ⟨h.mem, hk⟩, h.made,
    fun d hd => h.highest d (Store.mem_removeConfig.mp hd).1⟩

theorem IsTop.congr (h : IsTop st rk t) (he : ∀ n, newConfig rk n = newConfig rk' n) :
    IsTop st rk' t :=
  ⟨h.mem, by rw [MadeFrom, ← he]; exact h.made, h.highest⟩

theorem Alien.later (h : Alien uid st) (ho : ∀ d ∈ st'.configs, ∃ c ∈ st.configs, Kin c d) :
    Alien uid st' := by
  intro d hd
  obtain ⟨c, hc, hcd⟩ := ho d hd
  exact mt hcd.owned.mp (h c hc)

theorem Alien.remove (h : Alien uid st) (key : NamespacedName) : Alien uid (st.removeConfig key) :=
  fun c hc => h c (Store.mem_removeConfig.mp hc).1

theorem Judged.later (h : Judged uid st rk) (hu : rk.uid = uid)
    (hd : Drifts uid st.configs st'.configs) : Judged uid st' rk := by
  obtain ⟨t, ht⟩ | ha := h
  · obtain ⟨t', ht', -⟩ := ht.later hu hd
    exact .inl ⟨t', ht'⟩
  · exact .inr (ha.later hd.origin)

theorem isTop_create {seq : Nat} (hlt : ∀ d ∈ st.configs, d.sequence < seq) :
    IsTop { st with configs := st.configs ++ [newConfig rk seq] } rk (newConfig rk seq) := by
  refine ⟨List.mem_append_right _ List.mem_cons_self, madeFrom_newConfig rk seq, fun d hd => ?_⟩
  rcases List.mem_append.mp hd with hd | hd
  · exact (hlt d hd).le
  · rw [List.mem_singleton.mp hd]

end

/-! ## What can still be read -/

/-- `rk` is a version of the Redkey that a later Reconcile can read. -/
def Readable (req : NamespacedName) (w : World) (rk : Redkey) : Prop :=
  ∃ i st, w.seen.redkey ≤ i ∧ w.history[i]? = some st ∧ st.redkeys req = some rk

/-- The generation is observed, which may keep a Reconcile from creating a config. -/
def Stamped (rk : Redkey) : Prop :=
  rk.status.observedGeneration = rk.generation ∧ rk.spec.primaries ≠ 0

def Vouched (req : NamespacedName) (uid : String) (w : World) : Prop :=
  ∀ rk, Readable req w rk → Stamped rk → Judged uid w.store rk

theorem readable_current (hc : Cursors w) {rk : Redkey} (h : w.store.redkeys req = some rk) :
    Readable req w rk := ⟨w.now, w.store, hc.seenRedkey, w.history_now, h⟩

theorem Readable.mem {rk : Redkey} (h : Readable req w rk) :
    ∃ st ∈ w.history, st.redkeys req = some rk := by
  obtain ⟨i, st, -, hst, hrk⟩ := h
  exact ⟨st, List.mem_of_getElem? hst, hrk⟩

theorem Readable.before {rk : Redkey} (h : Readable req w' rk) (hh : w.Extends w')
    (hs : w.seen.redkey ≤ w'.seen.redkey) : Readable req w rk ∨ w'.store.redkeys req = some rk := by
  obtain ⟨i, st, hi, hst, hrk⟩ := h
  obtain hst | rfl := hh.getElem? hst
  · exact .inl ⟨i, st, hs.trans hi, hst, hrk⟩
  · exact .inr hrk

theorem Vouched.step (h : Vouched req uid w) (hh : w.Extends w')
    (hs : w.seen.redkey ≤ w'.seen.redkey)
    (hk : ∀ rk, Readable req w rk → Stamped rk → Judged uid w.store rk → Judged uid w'.store rk)
    (hn : ∀ rk, w'.store.redkeys req = some rk → Stamped rk →
      Readable req w rk ∨ Judged uid w'.store rk) : Vouched req uid w' := by
  intro rk hr hst
  have old : Readable req w rk → Judged uid w'.store rk := fun hr => hk rk hr hst (h rk hr hst)
  obtain hr | hrk := hr.before hh hs
  · exact old hr
  · exact (hn rk hrk hst).elim old id

/-- Whatever can still be read and is observed, is of the generation the
current Reconcile has read. -/
theorem Readable.newConfig_eq {rk cluster : Redkey} (h : Readable req w rk) (hst : Stamped rk)
    (hv : Versions req w) (hr : ReadRedkey req cluster w) (hb : Bounded req w cluster.generation) :
    rk.spec = cluster.spec ∧ ∀ n, newConfig cluster n = newConfig rk n := by
  obtain ⟨i, st, hi, hi', hrk⟩ := h
  obtain ⟨-, j, st₀, -, hj, hj', hcl⟩ := hr
  have hmem := List.mem_of_getElem? hi'
  have hmem₀ := List.mem_of_getElem? hj'
  have hle := ((hv.precedes (hj.trans hi) hj' hi').precedes hcl hrk).generation
  have hg : rk.generation = cluster.generation :=
    le_antisymm (hst.1 ▸ hb.observed st hmem rk hrk) hle
  have hspec := hv.spec_eq hmem hmem₀ hrk hcl hg
  exact ⟨hspec, newConfig_congr ((hv.of_mem hmem₀ hcl).1.trans (hv.of_mem hmem hrk).1.symm)
    (hv.uid_eq hmem₀ hmem hcl hrk) hg.symm hspec.symm⟩

/-! ## What a Reconcile knows -/

/-- A list that was read from the store, against the configs stored now. -/
structure Mirrors (req : NamespacedName) (uid : String) (configs : List RedkeyConfig) (st : Store) :
    Prop where
  ascending : Ascending configs
  named : ∀ c ∈ configs, c.key = ⟨req.namespace_, configName req.name c.sequence⟩
  layered : Layered uid configs
  drifts : Drifts uid configs st.configs

/-- The Reconcile has decided on the list it read first: with the Redkey's own
config on top, which is not one of those to be deleted, or with none of its own. -/
def Decided (uid : String) (rk : Redkey) (older : List RedkeyConfig) (w : World) : Prop :=
  ∃ items, w.consulted = some items ∧
    (heeds rk items = true → ∃ t, IsTop w.store rk t ∧ ∀ c ∈ older, c.key ≠ t.key) ∧
    (heeds rk items = false → Alien uid w.store)

def Placed (req : NamespacedName) (uid : String) : Point → World → Prop
  | .start, w => w.consulted = none
  | .got rk, w => w.consulted = none ∧ (Stamped rk → Judged uid w.store rk)
  | .listed rk configs, w =>
    (∃ items, w.consulted = some items ∧ configs = sortBySequence items) ∧
      Mirrors req uid configs w.store ∧ (Stamped rk → Judged uid w.store rk)
  | .created rk, w => rk.spec.primaries ≠ 0 → (∃ t, IsTop w.store rk t) ∧
      ∃ items, w.consulted = some items ∧ heeds rk items = true
  | .pruning rk older _, w => Decided uid rk older w
  | .aggregating rk _, w | .refetched rk _ _, w | .settled rk, w =>
    rk.spec.primaries ≠ 0 → Decided uid rk [] w
  | _, _ => True

section
variable {configs : List RedkeyConfig} {rk : Redkey} {t : RedkeyConfig}

theorem Mirrors.later {st st' : Store} (h : Mirrors req uid configs st)
    (hd : Drifts uid st.configs st'.configs) : Mirrors req uid configs st' :=
  ⟨h.ascending, h.named, h.layered, h.drifts.trans hd⟩

/-- A list just read. -/
theorem Strata.mirrors (h : Strata req uid w) {items : List RedkeyConfig}
    (hp : items.Perm w.store.configs) : Mirrors req uid (sortBySequence items) w.store := by
  have hmem : ∀ c, c ∈ sortBySequence items ↔ c ∈ w.store.configs := fun c =>
    mem_sortBySequence.trans hp.mem_iff
  refine ⟨sortBySequence_ascending ?_, fun c hc => h.named c ((hmem c).mp hc),
    h.layered.subset fun c hc => (hmem c).mp hc, .of_mem_iff fun c => (hmem c).symm⟩
  exact (hp.map RedkeyConfig.sequence).nodup_iff.mpr h.sequences_nodup

/-- The number of a new config is above all that are stored. -/
theorem Mirrors.lt_nextSequence {st : Store} (h : Mirrors req uid configs st) :
    ∀ d ∈ st.configs, d.sequence < nextSequence configs.getLast? := by
  intro d hd
  obtain ⟨c, hc, hcd⟩ := h.drifts.origin d hd
  rw [hcd.sequence]
  exact h.ascending.lt_nextSequence c hc

/-- Pruning does not delete the Redkey's own config on top. -/
theorem Mirrors.prune {st : Store} (h : Mirrors req uid configs st) (ht : IsTop st rk t)
    (hu : rk.uid = uid) : ∀ c ∈ configs.take (lastAppliedIndex configs), c.key ≠ t.key := by
  intro c hc hck
  obtain hnil | ⟨a, ha, -⟩ := take_lastAppliedIndex configs
  · rw [hnil] at hc; cases hc
  have hca : c.sequence < a.sequence := by
    have hasc := h.ascending
    rw [Ascending, ← List.take_append_drop (lastAppliedIndex configs) configs] at hasc
    exact (List.pairwise_append.mp hasc).2.2 c hc a ha
  have hc := List.mem_of_mem_take hc
  have ha := List.mem_of_mem_drop ha
  obtain ⟨l, hl, hlt⟩ := h.drifts.origin t ht.mem
  have hcl : c.sequence = l.sequence := by
    have := (h.named c hc).symm.trans ((hck.trans hlt.key).trans (h.named l hl))
    exact (configName_injective (NamespacedName.mk.inj this).2).2
  -- what comes after an own config is the Redkey's own, so it is still stored
  have hol : Owned uid l := hlt.owned.mp (ht.made.owner.trans (by rw [hu]))
  have hoa : Owned uid a := by
    by_contra hn
    have := h.layered a ha l hl hn hol
    omega
  obtain ⟨b, hb, hab⟩ := h.drifts.kept a ha hoa
  have := ht.highest b hb
  rw [hab.sequence, hlt.sequence] at this
  omega

theorem Decided.later {older : List RedkeyConfig} (h : Decided uid rk older w) (hu : rk.uid = uid)
    (hd : Drifts uid w.store.configs w'.store.configs) (hc : w'.consulted = w.consulted) :
    Decided uid rk older w' := by
  obtain ⟨items, hi, hyes, hno⟩ := h
  refine ⟨items, hc.trans hi, fun hh => ?_, fun hh => (hno hh).later hd.origin⟩
  obtain ⟨t, ht, ho⟩ := hyes hh
  obtain ⟨t', ht', hk⟩ := ht.later hu hd
  exact ⟨t', ht', fun c hc => hk ▸ ho c hc⟩

theorem Placed.later (h : Placed req uid p w) (hu : ∀ rk, p.cluster = some rk → rk.uid = uid)
    (hd : Drifts uid w.store.configs w'.store.configs) (hc : w'.consulted = w.consulted) :
    Placed req uid p w' := by
  cases p with
  | start => exact hc.trans h
  | got rk => exact ⟨hc.trans h.1, fun hs => (h.2 hs).later (hu rk rfl) hd⟩
  | listed rk configs =>
    obtain ⟨⟨items, hi, he⟩, hm, hs⟩ := h
    exact ⟨⟨items, hc.trans hi, he⟩, hm.later hd, fun hst => (hs hst).later (hu rk rfl) hd⟩
  | created rk =>
    intro hp
    obtain ⟨⟨t, ht⟩, items, hi, hh⟩ := h hp
    obtain ⟨t', ht', -⟩ := ht.later (hu rk rfl) hd
    exact ⟨⟨t', ht'⟩, items, hc.trans hi, hh⟩
  | pruning rk older kept => exact Decided.later h (hu rk rfl) hd hc
  | aggregating rk configs => exact fun hp => (h hp).later (hu rk rfl) hd hc
  | refetched rk configs latest => exact fun hp => (h hp).later (hu rk rfl) hd hc
  | settled rk => exact fun hp => (h hp).later (hu rk rfl) hd hc
  | _ => trivial

/-- A Reconcile that keeps to the configs there are. -/
theorem Mirrors.reuse (h : Mirrors req uid configs w.store) (hs : Strata req uid w)
    (hv : Versions req w) (hr : ReadRedkey req rk w) (hb : Bounded req w rk.generation)
    (hu : rk.uid = uid) (hj : Stamped rk → Judged uid w.store rk) {items : List RedkeyConfig}
    (hi : w.consulted = some items) (he : configs = sortBySequence items)
    (hp : rk.spec.primaries ≠ 0) (hc : ¬ Creates rk configs) :
    Decided uid rk (configs.take (lastAppliedIndex configs)) w := by
  obtain ⟨hne, hneed⟩ : configs ≠ [] ∧ needsNewConfig rk configs.getLast? = false := by
    simpa [Creates, hp] using hc
  obtain ⟨z, hz⟩ : ∃ z, configs.getLast? = some z := ⟨_, List.getLast?_eq_some_getLast hne⟩
  rw [hz] at hneed
  have hzmem := List.mem_of_getLast? hz
  have hheeds : heeds rk items = decide (Owned uid z) := by
    rw [heeds, ← he, hz, hu]
    simp [hneed]
  refine ⟨items, hi, fun hh => ?_, fun hh => ?_⟩
  · have hoz : Owned uid z := by simpa [hheeds] using hh
    obtain ⟨t, ht, hzt⟩ := h.drifts.kept z hzmem hoz
    have hot : Owned uid t := hzt.owned.mpr hoz
    suffices htop : ∃ t, IsTop w.store rk t by
      obtain ⟨t, ht⟩ := htop
      exact ⟨t, ht, h.prune ht hu⟩
    obtain ⟨c, g, hzc, hg, hle⟩ | hobs := needsNewConfig_eq_false hneed
    · -- the annotation of an own config tells the spec it was created from
      cases hzc
      obtain ⟨rk', hsent, hm⟩ := hs.made t ht hot
      obtain ⟨st', hst', hrk'⟩ := hsent.version
      have hann : annotatedGeneration t = some g := by
        rw [annotatedGeneration, hzt.metadata]
        exact hg
      rw [hm.annotated (hv.of_mem hst' hrk').2, Option.some.injEq] at hann
      have heq := hsent.newConfig_eq hv hr.mem hb (by omega)
      refine ⟨t, ht, by rw [MadeFrom, ← heq]; exact hm, fun d hd => ?_⟩
      obtain ⟨c, hc, hcd⟩ := h.drifts.origin d hd
      rw [hcd.sequence, hzt.sequence]
      exact h.ascending.le_getLast hz c hc
    · obtain ⟨st', hst', hrk⟩ := hr.mem
      obtain htop | ha := hj ⟨le_antisymm (hb.observed st' hst' rk hrk) hobs, hp⟩
      · exact htop
      · exact absurd hot (ha t ht)
  · have hnz : ¬ Owned uid z := by simpa [hheeds] using hh
    intro d hd hod
    obtain ⟨c, hc, hcd⟩ := h.drifts.origin d hd
    have hlt := h.layered z hzmem c hc hnz (hcd.owned.mp hod)
    have hle := h.ascending.le_getLast hz c hc
    omega

end

/-! ## Steps -/

theorem Decided.judged {rk : Redkey} {older : List RedkeyConfig} (h : Decided uid rk older w) :
    Judged uid w.store rk := by
  obtain ⟨items, -, hyes, hno⟩ := h
  cases hh : heeds rk items with
  | true =>
    obtain ⟨t, ht, -⟩ := hyes hh
    exact .inl ⟨t, ht⟩
  | false => exact .inr (hno hh)

/-- The UID of every version of the Redkey. -/
def Named (req : NamespacedName) (uid : String) (w : World) : Prop :=
  ∀ st ∈ w.history, ∀ rk, st.redkeys req = some rk → rk.uid = uid

theorem Named.cluster (h : Named req uid w) (hs : Sourced req p w) :
    ∀ rk, p.cluster = some rk → rk.uid = uid := by
  intro rk hp
  obtain ⟨st, hst, hrk⟩ := (hs.readRedkey hp).mem
  exact h st hst rk hrk

theorem Strata.effect (h : Strata req uid w) (hp : Placed req uid p w) (hs : Sourced req p w)
    (hv : Versions req w) (hu : Named req uid w) (he : Effect currentLists req p w w') :
    Strata req uid w' := by
  have same : ∀ d ∈ w.store.configs, ∃ c ∈ w.store.configs, Kin c d := fun d hd => ⟨d, hd, .refl d⟩
  cases he with
  | quiet hq =>
    exact h.later hq.history (by rw [hq.journal]; exact fun x hx => hx) (by rw [hq.configs])
      (by rw [hq.configs]; exact same) (by rw [hq.listed]; exact h.listed)
  | sawRedkey => exact h.later (.inl rfl) (fun x hx => hx) (.refl _) same h.listed
  | sawConfigs hi ok hview hperm =>
    obtain ⟨rfl, rfl⟩ := view_currentLists ok hview
    refine h.later (.inl rfl) (fun x hx => hx) (.refl _) same fun items hitems => ?_
    cases hitems
    exact h.layered.subset fun c hc => List.mem_of_mem_filter (hperm.mem_iff.mp hc)
  | updated => exact h.later (.inr rfl) (fun x hx => hx) (.refl _) same h.listed
  | created hi ok hn =>
    obtain ⟨cluster, configs, rfl, -, rfl⟩ := hi.of_createConfig
    obtain ⟨st, hst, hrk⟩ := hs.1.mem
    exact h.create (hv.of_mem hst hrk).1 (hu st hst cluster hrk) hs.1.mem hp.2.1.lt_nextSequence hn
  | deleted =>
    exact h.later (.inr rfl) (fun x hx => List.mem_cons_of_mem _ hx) (List.filter_sublist.map _)
      (fun d hd => same d (Store.mem_removeConfig.mp hd).1) h.listed

theorem Vouched.drift (h : Vouched req uid w) (hc : Cursors w) (hu : Named req uid w)
    (hr : w'.store.redkeys = w.store.redkeys) (hh : w.Extends w')
    (hs : w.seen.redkey ≤ w'.seen.redkey) (hd : Drifts uid w.store.configs w'.store.configs) :
    Vouched req uid w' := by
  refine h.step hh hs (fun rk hrd _ hj => ?_) fun rk hrk _ => .inl (readable_current hc (hr ▸ hrk))
  obtain ⟨st, hst, hrk⟩ := hrd.mem
  exact hj.later (hu st hst rk hrk) hd

/-- The status that a Reconcile stamps is that of the generation it has read. -/
theorem Issues.stamps {rk cur : Redkey} (hi : Issues req p (.write (.updateStatus rk)))
    (hp : Placed req uid p w) (hs : Sourced req p w) (hv : Versions req w)
    (hcur : w.store.redkeys req = some cur) (hst : Stamped (cur.withStatus rk.status)) :
    Judged uid w.store (cur.withStatus rk.status) := by
  obtain ⟨cluster, hcl, ho⟩ := hi.observedGeneration
  obtain ⟨st, hmem, hrk⟩ := (hs.readRedkey hcl).mem
  have hg : cluster.generation = cur.generation := ho.symm.trans hst.1
  have hspec := hv.spec_eq hmem w.store_mem_history hrk hcur hg
  have hpos : cluster.spec.primaries ≠ 0 := hspec ▸ hst.2
  have huid : cluster.uid = cur.uid := hv.uid_eq hmem w.store_mem_history hrk hcur
  have heq : ∀ n, newConfig cluster n = newConfig (cur.withStatus rk.status) n :=
    newConfig_congr ((hv.of_mem hmem hrk).1.trans (hv.keyed _ _ hcur).symm) huid hg hspec
  have hj : Judged uid w.store cluster := by
    obtain ⟨_, _, _, _, _, rfl, -, -⟩ | ⟨_, _, rfl, -⟩ := hi.of_updateStatus
    · cases hcl
      exact (hp hpos).judged
    · cases hcl
      exact absurd hs.2.1 hpos
  obtain ⟨t, ht⟩ | ha := hj
  · exact .inl ⟨t, ht.congr heq⟩
  · exact .inr ha

theorem Vouched.effect (h : Vouched req uid w) (hp : Placed req uid p w)
    (hs : Sourced req p w) (hc : Cursors w) (hv : Versions req w) (hl : Leading req p w)
    (hu : Named req uid w) (he : Effect T req p w w') : Vouched req uid w' := by
  cases he with
  | quiet hq => exact h.drift hc hu hq.redkeys hq.history hq.seenRedkey.ge (.of_eq hq.configs)
  | sawRedkey => exact h.drift hc hu rfl (.inl rfl) (le_max_left _ _) (.of_eq rfl)
  | sawConfigs => exact h.drift hc hu rfl (.inl rfl) le_rfl (.of_eq rfl)
  | updated hi ok hcur =>
    have same : ∀ {new rk : Redkey}, Judged uid w.store rk →
        Judged uid (w.store.setRedkey new) rk :=
      fun hj => hj.imp (fun ⟨t, ht⟩ => ⟨t, ht.1, ht.2, ht.3⟩) id
    refine h.step (.inr rfl) le_rfl (fun _ _ _ hj => same hj) fun rk' hrk' hst => ?_
    obtain ⟨rfl, hcur⟩ | hrk' := hv.store_update hcur (precedes_withStatus _ _) hrk'
    · exact .inr (same (hi.stamps hp hs hv hcur hst))
    · exact .inl (readable_current hc hrk')
  | created hi ok hn =>
    obtain ⟨cluster, configs, rfl, -, rfl⟩ := hi.of_createConfig
    refine h.step (.inr rfl) le_rfl (fun rk hrd hst _ => ?_) fun rk hrk _ =>
      .inl (readable_current hc hrk)
    have heq := (hrd.newConfig_eq hst hv hs.1 (hl.cluster cluster rfl)).2
    exact .inl ⟨_, (isTop_create hp.2.1.lt_nextSequence).congr heq⟩
  | deleted hi ok hcfg =>
    refine h.step (.inr rfl) le_rfl (fun rk hrd hst hj => ?_) fun rk hrk _ =>
      .inl (readable_current hc hrk)
    obtain ⟨cluster, c, older, kept, rfl, rfl⟩ | ⟨cluster, c, items, rfl, rfl⟩ := hi.of_deleteConfig
    · obtain ⟨items, -, hyes, hno⟩ := hp
      cases hh : heeds cluster items with
      | false => exact .inr ((hno hh).remove _)
      | true =>
        obtain ⟨t, ht, hold⟩ := hyes hh
        have heq := (hrd.newConfig_eq hst hv hs.1 (hl.cluster cluster rfl)).2
        exact .inl ⟨t, (ht.remove (hold c List.mem_cons_self).symm).congr heq⟩
    · have hspec := (hrd.newConfig_eq hst hv hs.1 (hl.cluster cluster rfl)).1
      exact absurd (hspec ▸ hs.2.1) hst.2

theorem Vouched.env {e : Ev} (h : Vouched req uid w) (hstr : Strata req uid w) (hc : Cursors w)
    (hv : Versions req w) (hl : Leading req p w) (hu : Named req uid w) (he : env e w = some w') :
    Vouched req uid w' := by
  obtain ⟨cur, hcur, -⟩ := hv.current
  obtain ⟨hd, -, hh, -⟩ := drifts_env hstr hcur (hu _ w.store_mem_history cur hcur) he
  cases e with
  | update key spec =>
    obtain ⟨rk, hrk, -, rfl⟩ := env_update he
    refine h.step (.inr hh) le_rfl (fun rk' hrd _ hj => ?_) fun rk' hrk' hst => ?_
    · obtain ⟨st, hst, hrk⟩ := hrd.mem
      exact hj.later (hu st hst rk' hrk) hd
    · obtain ⟨rfl, hrk⟩ | hrk' := hv.store_update hrk (precedes_withSpec _ _) hrk'
      · -- the new generation is not observed yet
        have hle := (hl.ahead w.now w.store rk hc.seenRedkey w.history_now hrk).observed
          _ w.store_mem_history rk hrk
        have hst : rk.status.observedGeneration = rk.generation + 1 := hst.1
        omega
      · exact .inl (readable_current hc hrk')
  | robin key st => obtain ⟨c, -, rfl⟩ := env_robin he; exact h.drift hc hu rfl (.inr rfl) le_rfl hd
  | collect key =>
    obtain ⟨c, -, -, rfl⟩ := env_collect he
    exact h.drift hc hu rfl (.inr rfl) le_rfl hd

theorem Placed.silent (h : Placed req uid p w) (hstr : Strata req uid w) (hs : Sourced req p w)
    (hv : Versions req w) (hl : Leading req p w) (hu : Named req uid w) (hq : Silent p q) :
    Placed req uid q w := by
  cases hq with
  | quit => trivial
  | @reuse cluster configs hp hc =>
    obtain ⟨⟨items, hi, he⟩, hm, hj⟩ := h
    exact hm.reuse hstr hv hs.1 (hl.cluster cluster rfl) (hu.cluster hs cluster rfl) hj hi he hp hc
  | begun h0 => exact fun hp => absurd h0 hp
  | pruned => exact fun _ => h
  | await ha => exact fun hp => absurd ha.1 hp
  | again => exact h
  | skip => exact h
  | steady => trivial

/-- A list read is current, and the label selects every config. -/
theorem Strata.lists_current (h : Strata req uid w) (hs : Sourced req p w) (hv : Versions req w)
    {cluster : Redkey} (hp : p.cluster = some cluster) {o : Outcome} {items : List RedkeyConfig}
    (ok : currentLists.call (.listConfigs cluster.key.namespace_ cluster.key.name) o w = true)
    (hw : answer (.listConfigs cluster.key.namespace_ cluster.key.name) o w = some (.ok items, w')) :
    items.Perm w.store.configs ∧ w' = w.sawConfigs w.now items := by
  obtain ⟨i, st, hview, hperm, rfl⟩ := answer_listConfigs_ok hw
  obtain ⟨rfl, rfl⟩ := view_currentLists ok hview
  obtain ⟨st, hst, hrk⟩ := (hs.readRedkey hp).mem
  rw [(hv.of_mem hst hrk).1, h.configsOf] at hperm
  exact ⟨hperm, rfl⟩

/-- An empty list, or one whose highest config is outdated, is heeded. -/
theorem heeds_of_creates {cluster : Redkey} {items : List RedkeyConfig}
    (hp : cluster.spec.primaries ≠ 0) (h : Creates cluster (sortBySequence items)) :
    heeds cluster items = true := by
  simp only [Creates, hp, ite_false] at h
  unfold heeds
  split
  · rfl
  · rename_i c hc
    rw [hc] at h
    obtain h | h := h
    · rw [h] at hc; cases hc
    · rw [h, Bool.or_true]

/-- The name of the new config is free. -/
theorem Mirrors.not_taken {configs : List RedkeyConfig} {cluster : Redkey}
    (h : Mirrors req uid configs w.store) (hstr : Strata req uid w) (hk : cluster.key = req) :
    w.store.config (newConfig cluster (nextSequence configs.getLast?)).key = none := by
  refine Store.config_eq_none.mpr fun d hd he => ?_
  rw [hstr.named d hd, (madeFrom_newConfig cluster _).key, hk] at he
  have hseq := (configName_injective (NamespacedName.mk.inj he).2).2
  have hlt := h.lt_nextSequence d hd
  rw [newConfig_sequence] at hseq
  omega

theorem Placed.next (h : Placed req uid p w) (hvo : Vouched req uid w) (hstr : Strata req uid w)
    (hs : Sourced req p w) (hc : Cursors w) (hun : Unread p w) (hv : Versions req w)
    (hu : Named req uid w) {c : Call} {o : Outcome} {res : Except ApiError (Reply c)}
    (hq : Next req p c res q) (ok : currentLists.call c o w = true)
    (hw : answer c o w = some (res, w')) : Placed req uid q w' := by
  have huid := hu.cluster hs
  cases hq with
  | stay hi hcall =>
    have hquiet := quiet_answer hcall hw
    exact h.later huid (.of_eq hquiet.configs) hquiet.consulted
  | failed => trivial
  | missing => trivial
  | @get cluster =>
    obtain ⟨i, st, hview, hrk, rfl⟩ := answer_getRedkey_ok hw
    obtain ⟨hf, hst⟩ := view_spec (hc.redkey.trans hc.seenRedkey) hview
    exact ⟨h, hvo cluster ⟨i, st, hun.1 ▸ hf, hst, hrk⟩⟩
  | @list cluster items =>
    obtain ⟨hp, rfl⟩ := hstr.lists_current hs hv rfl ok hw
    exact ⟨⟨items, by simp [World.sawConfigs, h.1], rfl⟩, hstr.mirrors hp, h.2⟩
  | @create cluster configs r hcr hr =>
    intro hpos
    obtain ⟨⟨items, hi, rfl⟩, hm, -⟩ := h
    obtain ⟨st, hst, hrk⟩ := hs.1.mem
    have hfree := hm.not_taken hstr (hv.of_mem hst hrk).1
    obtain rfl | rfl := hr
    · obtain ⟨st', hst', rfl⟩ := answer_write_ok hw
      obtain ⟨-, rfl⟩ := apply_createConfig hst'
      exact ⟨⟨_, isTop_create hm.lt_nextSequence⟩, items, hi, heeds_of_creates hpos hcr⟩
    · have hex := (apply_createConfig_error (answer_write_rejected hw (by simp)).2).2
      rw [hfree] at hex
      cases hex
  | @relist cluster items hpos =>
    obtain ⟨hp, rfl⟩ := hstr.lists_current hs hv rfl ok hw
    obtain ⟨⟨t, ht⟩, first, hi, hh⟩ := h hpos
    refine ⟨first, by simp [World.sawConfigs, hi], fun _ => ⟨t, ht, ?_⟩, fun hno => ?_⟩
    · exact (hstr.mirrors hp).prune ht (huid cluster rfl)
    · rw [hh] at hno; cases hno
  | @prune cluster c older kept r hr =>
    obtain ⟨items, hi, hyes, hno⟩ := h
    have rest : ∀ {t : RedkeyConfig}, (∀ d ∈ c :: older, d.key ≠ t.key) → ∀ d ∈ older, d.key ≠ t.key :=
      fun ho d hd => ho d (List.mem_cons_of_mem _ hd)
    obtain rfl | rfl := hr
    · obtain ⟨st, hst, rfl⟩ := answer_write_ok hw
      obtain ⟨-, -, rfl⟩ := apply_deleteConfig hst
      refine ⟨items, hi, fun hh => ?_, fun hh => (hno hh).remove _⟩
      obtain ⟨t, ht, ho⟩ := hyes hh
      exact ⟨t, ht.remove (ho c List.mem_cons_self).symm, rest ho⟩
    · obtain ⟨rfl, -⟩ := answer_write_rejected hw (by simp)
      refine ⟨items, hi, fun hh => ?_, hno⟩
      obtain ⟨t, ht, ho⟩ := hyes hh
      exact ⟨t, ht, rest ho⟩
  | refetch =>
    obtain ⟨i, st, -, -, rfl⟩ := answer_getRedkey_ok hw
    exact h
  | retryRead =>
    obtain ⟨-, rfl⟩ | ⟨i, st, -, -, rfl⟩ := answer_getRedkey hw <;> exact h
  | update =>
    obtain ⟨st, hst, rfl⟩ := answer_write_ok hw
    obtain ⟨cur, -, -, rfl⟩ := apply_updateStatus hst
    exact Placed.later (p := .settled _) h huid (.of_eq rfl) rfl
  | retryUpdate =>
    obtain ⟨rfl, -⟩ | ⟨st, hst, rfl, -⟩ := answer_write hw
    · exact h
    · obtain ⟨cur, -, -, rfl⟩ := apply_updateStatus hst
      exact Placed.later (p := .aggregating _ _) h huid (.of_eq rfl) rfl
  | relistAll => trivial
  | delete => trivial
  | zero => exact fun hp => absurd hs.2.1 hp

/-! ## Runs -/

theorem Runs.named (h : Runs T req w₀ p w) (hf : Newborn req w₀) {rk₀ : Redkey}
    (h₀ : w₀.store.redkeys req = some rk₀) : Named req rk₀.uid w := by
  have hmem : w₀.store ∈ w.history := by
    refine h.world (G := fun w => w₀.store ∈ w.history) w₀.store_mem_history ?_ ?_ ?_
    · exact fun p e w w' _ hm _ he => (later_env he).mem hm
    · exact fun w hm => hm
    · intro p w w' _ hm he
      cases he with
      | quiet hq => exact (later_quiet hq).mem hm
      | sawRedkey => exact hm
      | sawConfigs => exact hm
      | updated => exact (later_commit _ _ _).mem hm
      | created => exact (later_commit _ _ _).mem hm
      | deleted => exact (later_commit _ _ _).mem hm
  exact fun st hst rk hrk => (h.versions hf.versions).uid_eq hst hmem hrk h₀

structure Apart (req : NamespacedName) (uid : String) (p : Point) (w : World) : Prop where
  strata : Strata req uid w
  vouched : Vouched req uid w
  placed : Placed req uid p w

theorem Runs.apart (h : Runs currentLists req w₀ p w) (hf : Recreated req w₀) {rk₀ : Redkey}
    (h₀ : w₀.store.redkeys req = some rk₀) : Apart req rk₀.uid p w := by
  induction h using Runs.induct with
  | init =>
    have hno : Alien rk₀.uid w₀.store := fun c hc => hf.others c hc rk₀ h₀
    exact ⟨⟨hf.keys, hf.named, hf.labelled, fun c hc ho => absurd ho (hno c hc),
      fun c _ d hd _ ho => absurd ho (hno d hd), fun items hi => by rw [hf.listed] at hi; cases hi⟩,
      fun rk _ _ => .inr hno, trivial⟩
  | env p e w w' h ok hw ih =>
    have hv := h.versions hf.versions
    have hu := h.named hf.toNewborn h₀
    obtain ⟨cur, hcur, -⟩ := hv.current
    obtain ⟨hd, hk, hh, hj⟩ := drifts_env ih.strata hcur (hu _ w.store_mem_history cur hcur) hw
    have hlater := later_env hw
    refine ⟨ih.strata.later (.inr hh) hj hk hd.origin (by rw [hlater.listed]; exact ih.strata.listed),
      ih.vouched.env ih.strata (h.cursors hf.cursors) hv (h.leading hf.toNewborn) hu hw, ?_⟩
    exact ih.placed.later (hu.cluster (h.sourced hf.cursors)) hd hlater.consulted
  | enter p w h ih =>
    exact ⟨ih.strata.later (.inl rfl) (fun x hx => hx) (.refl _) (fun d hd => ⟨d, hd, .refl d⟩)
      (fun items hi => by cases hi), ih.vouched, rfl⟩
  | silent p q w h hq ih =>
    exact ⟨ih.strata, ih.vouched, ih.placed.silent ih.strata (h.sourced hf.cursors)
      (h.versions hf.versions) (h.leading hf.toNewborn) (h.named hf.toNewborn h₀) hq⟩
  | call p q w w' c o res h hq ok hw ih =>
    have hv := h.versions hf.versions
    have hs := h.sourced hf.cursors
    have hu := h.named hf.toNewborn h₀
    have hc := h.cursors hf.cursors
    have he := hq.issues.effect ok hw
    exact ⟨ih.strata.effect ih.placed hs hv hu he,
      ih.vouched.effect ih.placed hs hc hv (h.leading hf.toNewborn) hu he,
      ih.placed.next ih.vouched ih.strata hs hc h.unread hv hu hq ok hw⟩

/-! ## Capture -/

/-- The status in `rk` is taken from a config of the Redkey itself. -/
def AggregatedFromOwn (cluster rk : Redkey) (configs : List RedkeyConfig) : Prop :=
  ∃ (latest : Redkey) (active : RedkeyConfig) (now : Time) (g : Nat),
    selectActiveConfig configs = some active ∧ Owned cluster.uid active ∧
    rk = { latest with status := aggregatedStatus now latest active g }

/-- In every run with current lists, whatever Robin does, for every Reconcile of
the new Redkey. It leaves a config created from its Redkey exactly if the highest
config it listed was its own or asked for a new one. It takes the status from a
config of its own exactly if the list it hands over spares it the others. -/
theorem recreated_not_captured_iff (hf : Recreated req w₀)
    (h : Reaches currentLists (reconcile r req) ⟨w₀, none⟩ s) {cluster : Redkey}
    (hs : s.world.snapshot = some cluster) (hpos : 0 < cluster.spec.primaries) :
    (∀ a, s.running = some (.ret a) → ∃ items, s.world.consulted = some items ∧
      ((∃ c ∈ s.world.store.configs, MadeFrom cluster c) ↔ heeds cluster items = true)) ∧
    ∀ rk, pendingUpdate s = some rk → ∃ configs, handedList s.world = some configs ∧
      (AggregatedFromOwn cluster rk configs ↔ spares cluster.uid configs = true) := by
  obtain ⟨rk₀, h₀, -, -⟩ := hf.redkey
  refine ⟨fun a ha => ?_, fun rk hu => ?_⟩
  · obtain ⟨p, hp, hret⟩ := reconcile_returned h ha
    have hsrc := hp.sourced hf.cursors
    obtain rfl | ⟨cluster', rfl⟩ := hret
    · rw [show s.world.snapshot = none from hsrc] at hs
      cases hs
    · have hsnap := ReadRedkey.snapshot hsrc
      rw [hs, Option.some.injEq] at hsnap
      subst hsnap
      obtain ⟨items, hi, hyes, hno⟩ := (hp.apart hf h₀).placed hpos.ne'
      refine ⟨items, hi, fun ⟨c, hc, hm⟩ => ?_, fun hh => ?_⟩
      · cases hh : heeds cluster items with
        | true => rfl
        | false =>
          have huid := (hp.named hf.toNewborn h₀).cluster hsrc cluster rfl
          exact absurd (hm.owner.trans (by rw [huid])) (hno hh c hc)
      · obtain ⟨t, ht, -⟩ := hyes hh
        exact ⟨t, ht.mem, ht.made⟩
  · obtain ⟨cluster', configs, latest, hp, hs', hh, latest', active, now, g, hact, hrk⟩ :=
      pending_aggregate hf.cursors h hu (.inr ⟨cluster, hs, hpos.ne'⟩)
    rw [hs, Option.some.injEq] at hs'
    subst hs'
    have huid := (hp.named hf.toNewborn h₀).cluster (hp.sourced hf.cursors) cluster rfl
    refine ⟨configs, hh.handedList hs, ?_⟩
    obtain ⟨all, ⟨items, hi, rfl⟩, ⟨-, rfl⟩ | ⟨hw, -⟩⟩ := hh
    · have hl : Layered rk₀.uid
          ((sortBySequence items).drop (lastAppliedIndex (sortBySequence items))) :=
        ((hp.apart hf h₀).strata.listed items hi.listed).subset
          fun c hc => mem_sortBySequence.mp (List.mem_of_mem_drop hc)
      have hsorted := (sortBySequence_sorted items).sublist
        (List.drop_sublist (lastAppliedIndex (sortBySequence items)) _)
      rw [huid, ← owned_active_iff hsorted hl hact, AggregatedFromOwn, huid]
      refine ⟨fun ⟨_, active', _, _, ha', ho, _⟩ => ?_,
        fun ho => ⟨latest', active, now, g, hact, ho, hrk⟩⟩
      rw [hact, Option.some.injEq] at ha'
      exact ha' ▸ ho
    · exact absurd hw.1 hpos.ne'

/-- A config of the deleted cluster, created for its generation 7. -/
def oldConfig : RedkeyConfig :=
  { newConfig { sampleRedkey 5 with uid := "u0", generation := 7 } 5 with
    status := { configPhase := .applied } }

/-- The sample cluster, created again while that config is still there. -/
def recreatedWorld (old : RedkeyConfig) : World :=
  { sampleWorld 3 with store := { (sampleWorld 3).store with configs := [old] } }

theorem recreated_recreatedWorld {old : RedkeyConfig}
    (hk : old.key = ⟨"ns", configName "rk" old.sequence⟩)
    (hl : old.metadata.labels.get clusterLabel = some "rk") (ho : ¬ Owned "u1" old) :
    Recreated sampleKey (recreatedWorld old) := by
  have hf := (fresh_sampleWorld 3).toNewborn
  have only : ∀ {c}, c ∈ (recreatedWorld old).store.configs → c = old := List.mem_singleton.mp
  refine ⟨⟨hf.keyed, hf.redkey, rfl, rfl, rfl, rfl⟩, by simp [recreatedWorld], fun c hc => ?_,
    fun c hc => ?_, fun c hc rk hrk => ?_, rfl⟩
  · rw [only hc]; exact hk
  · rw [only hc]; exact hl
  · rw [only hc]
    rw [show (recreatedWorld old).store.redkeys sampleKey = some (sampleRedkey 3) from
      redkeys_sampleWorld 3] at hrk
    cases hrk
    exact ho

/-- The Reconcile reads the new Redkey as it was created. -/
def readsNew (s : State server Result) : Bool :=
  s.world.snapshot.any fun cluster =>
    decide (0 < cluster.spec.primaries ∧ cluster.status = {} ∧ cluster.uid = "u1")

theorem of_readsNew (h : readsNew s = true) : ∃ cluster, s.world.snapshot = some cluster ∧
    0 < cluster.spec.primaries ∧ cluster.status = {} ∧ cluster.uid = "u1" := by
  obtain ⟨cluster, hs, hc⟩ := (Option.any_eq_true _ _).mp h
  exact ⟨cluster, hs, of_decide_eq_true hc⟩

/-- The old config without its annotation. -/
def bareConfig : RedkeyConfig :=
  { oldConfig with metadata := { oldConfig.metadata with annotations := [] } }

/-- The first calls of a Reconcile, undisturbed. -/
def firstCalls (n : Nat) : List (Move server) := [.event .start, .drain .ok n]

/-- Robin takes up the new config before the Reconcile lists it. -/
def takenUp : List (Move server) :=
  firstCalls 12 ++ [robinMoves 6 .inProgress, .drain .ok 4]

set_option maxRecDepth 100000 in
/-- An old config that carries no generation captures nothing, once Robin has
taken up the new one. -/
theorem recreated_not_captured_iff_sample :
    ∃ s s' cluster cluster' rk,
      Reaches currentLists sampleReconcile ⟨recreatedWorld bareConfig, none⟩ s ∧
      Reaches currentLists sampleReconcile ⟨recreatedWorld bareConfig, none⟩ s' ∧
      s.world.snapshot = some cluster ∧ hasReturned s = true ∧
      s'.world.snapshot = some cluster' ∧ pendingUpdate s' = some rk ∧
      (∃ items, s.world.consulted = some items ∧
        ((∃ c ∈ s.world.store.configs, MadeFrom cluster c) ↔ heeds cluster items = true)) ∧
      ∃ configs, handedList s'.world = some configs ∧
        (AggregatedFromOwn cluster' rk configs ↔ spares cluster'.uid configs = true) := by
  have hf : Recreated sampleKey (recreatedWorld bareConfig) :=
    recreated_recreatedWorld (by decide) (by decide) (by decide)
  obtain ⟨s, hs, ht⟩ : ∃ s,
      Reaches currentLists sampleReconcile ⟨recreatedWorld bareConfig, none⟩ s ∧
        (hasReturned s && readsNew s) = true :=
    exists_reaches_of_play (takenUp ++ [.drain .ok 60]) _ (by decide +kernel)
  obtain ⟨s', hs', ht'⟩ : ∃ s,
      Reaches currentLists sampleReconcile ⟨recreatedWorld bareConfig, none⟩ s ∧
        ((pendingUpdate s).isSome && readsNew s) = true :=
    exists_reaches_of_play takenUp _ (by decide +kernel)
  obtain ⟨hret, hnew⟩ := Bool.and_eq_true_iff.mp ht
  obtain ⟨hu, hnew'⟩ := Bool.and_eq_true_iff.mp ht'
  obtain ⟨rk, hrk⟩ := Option.isSome_iff_exists.mp hu
  obtain ⟨a, ha⟩ := of_hasReturned hret
  obtain ⟨cluster, hsnap, hpos, -, -⟩ := of_readsNew hnew
  obtain ⟨cluster', hsnap', hpos', -, -⟩ := of_readsNew hnew'
  exact ⟨s, s', cluster, cluster', rk, hs, hs', hsnap, hret, hsnap', hrk,
    (recreated_not_captured_iff hf hs hsnap hpos).1 a ha,
    (recreated_not_captured_iff hf hs' hsnap' hpos').2 rk hrk⟩

set_option maxRecDepth 100000 in
/-- One undisturbed Reconcile of the new Redkey, while a config of the old one
is still there: it creates none, and takes the status from the old one. -/
theorem recreated_can_be_captured :
    (¬ ∀ (r : RedkeyReconciler) (req : NamespacedName) (w₀ : World) (s : State server Result)
      (cluster : Redkey) (a : Result), Recreated req w₀ →
      Reaches currentLists (reconcile r req) ⟨w₀, none⟩ s → s.world.snapshot = some cluster →
      0 < cluster.spec.primaries → cluster.status = {} → s.running = some (.ret a) →
      ∃ c ∈ s.world.store.configs, MadeFrom cluster c) ∧
    ¬ ∀ (r : RedkeyReconciler) (req : NamespacedName) (w₀ : World) (s : State server Result)
      (cluster rk : Redkey) (configs : List RedkeyConfig), Recreated req w₀ →
      Reaches currentLists (reconcile r req) ⟨w₀, none⟩ s → s.world.snapshot = some cluster →
      0 < cluster.spec.primaries → cluster.status = {} → pendingUpdate s = some rk →
      handedList s.world = some configs → AggregatedFromOwn cluster rk configs := by
  have hf : Recreated sampleKey (recreatedWorld oldConfig) :=
    recreated_recreatedWorld (by decide) (by decide) (by decide)
  constructor
  · intro hall
    obtain ⟨s, hs, ht⟩ : ∃ s,
        Reaches currentLists sampleReconcile ⟨recreatedWorld oldConfig, none⟩ s ∧
          ((hasReturned s && readsNew s) &&
            s.world.store.configs.all fun c => decide (¬ Owned "u1" c)) = true :=
      exists_reaches_of_play (firstCalls 60) _ (by decide +kernel)
    obtain ⟨ht, hno⟩ := Bool.and_eq_true_iff.mp ht
    obtain ⟨hret, hnew⟩ := Bool.and_eq_true_iff.mp ht
    obtain ⟨a, ha⟩ := of_hasReturned hret
    obtain ⟨cluster, hsnap, hpos, hst, huid⟩ := of_readsNew hnew
    obtain ⟨c, hc, hm⟩ := hall _ _ _ s cluster a hf hs hsnap hpos hst ha
    exact of_decide_eq_true (List.all_eq_true.mp hno c hc) (hm.owner.trans (by rw [huid]))
  · intro hall
    obtain ⟨s, hs, ht⟩ : ∃ s,
        Reaches currentLists sampleReconcile ⟨recreatedWorld oldConfig, none⟩ s ∧
          ((readsNew s && (pendingUpdate s).isSome) && (handedList s.world).any fun configs =>
            configs.all fun c => decide (¬ Owned "u1" c)) = true :=
      exists_reaches_of_play (firstCalls 13) _ (by decide +kernel)
    obtain ⟨ht, hno⟩ := Bool.and_eq_true_iff.mp ht
    obtain ⟨hnew, hu⟩ := Bool.and_eq_true_iff.mp ht
    obtain ⟨rk, hrk⟩ := Option.isSome_iff_exists.mp hu
    obtain ⟨configs, hh, hno⟩ := (Option.any_eq_true _ _).mp hno
    obtain ⟨cluster, hsnap, hpos, hst, huid⟩ := of_readsNew hnew
    obtain ⟨-, active, -, -, hact, ho, -⟩ :=
      hall _ _ _ s cluster rk configs hf hs hsnap hpos hst hrk hh
    refine of_decide_eq_true (List.all_eq_true.mp hno active (selectActiveConfig_mem hact)) ?_
    rw [← huid]
    exact ho

end RedkeyOperator.Protocol
