import RedkeyOperator.Data.Block
import RedkeyOperator.Protocol.Generations

/-! # The lineage of configs under a stale cache

While the cluster has primaries, the stored configs are a block of consecutive
sequences that only moves forward: configs are added at the end and pruned at
the front. A new sequence is computed from a list that may be stale; what makes
it the next one is that the store is never more than one config ahead of what
can still be read. -/
namespace RedkeyOperator.Protocol
open RedkeyOperator.Api RedkeyOperator.Kube RedkeyOperator.Interleave RedkeyOperator.Controller
open RedkeyOperator.Data

variable {T : Terms server} {req : NamespacedName} {w₀ w w' : World} {p q : Point}

/-- The user never scales the cluster to zero. -/
def staysRunning (req : NamespacedName) : Terms server where
  env e _ := match e with
    | .update key spec => key != req || decide (0 < spec.primaries)
    | _ => true
  call _ _ _ := true

/-- Every version of the Redkey asks for primaries. -/
def Running (req : NamespacedName) (w : World) : Prop :=
  ∀ st ∈ w.history, ∀ rk, st.redkeys req = some rk → 0 < rk.spec.primaries

theorem Running.step (h : Running req w) (hh : w.Extends w')
    (hn : ∀ rk, w'.store.redkeys req = some rk → 0 < rk.spec.primaries) : Running req w' := by
  intro st hst rk hrk
  obtain hst | rfl := hh.mem hst
  · exact h st hst rk hrk
  · exact hn rk hrk

theorem Runs.running (h : Runs (staysRunning req) req w₀ p w) (hf : Fresh req w₀)
    (hpos : ∀ rk, w₀.store.redkeys req = some rk → 0 < rk.spec.primaries) : Running req w := by
  refine h.world ?_ ?_ ?_ ?_
  · intro st hst rk hrk
    rw [hf.history, List.mem_singleton] at hst
    exact hpos rk (hst ▸ hrk)
  · intro p e w w' hr hrun ok he
    have keep : ∀ rk, w.store.redkeys req = some rk → 0 < rk.spec.primaries :=
      hrun _ w.store_mem_history
    cases e with
    | update key spec =>
      obtain ⟨rk, hrk, -, rfl⟩ := env_update he
      refine hrun.step (.inr rfl) fun rk' hrk' => ?_
      have hv := hr.versions hf.versions
      obtain ⟨rfl, hreq⟩ | hrk' := hv.store_update hrk (precedes_withSpec _ _) hrk'
      · have hk : key = req := (hv.keyed _ _ hrk).symm.trans (hv.keyed _ _ hreq)
        have hs : 0 < spec.primaries := by simpa [staysRunning, hk] using ok
        exact hs
      · exact keep rk' hrk'
    | robin key s => obtain ⟨c, -, rfl⟩ := env_robin he; exact hrun.step (.inr rfl) keep
    | collect key => obtain ⟨c, -, -, rfl⟩ := env_collect he; exact hrun.step (.inr rfl) keep
  · exact fun w hrun => hrun.step (.inl rfl) (hrun _ w.store_mem_history)
  · intro p w w' hr hrun he
    have keep : ∀ rk, w.store.redkeys req = some rk → 0 < rk.spec.primaries :=
      hrun _ w.store_mem_history
    cases he with
    | quiet hq => exact hrun.step hq.history (hq.redkeys ▸ keep)
    | sawRedkey => exact hrun.step (.inl rfl) keep
    | sawConfigs => exact hrun.step (.inl rfl) keep
    | created => exact hrun.step (.inr rfl) keep
    | deleted => exact hrun.step (.inr rfl) keep
    | updated hi ok hcur =>
      refine hrun.step (.inr rfl) fun rk' hrk' => ?_
      obtain ⟨rfl, hreq⟩ | hrk' := (hr.versions hf.versions).store_update hcur
        (precedes_withStatus _ _) hrk'
      · have hs := keep _ hreq
        exact hs
      · exact keep rk' hrk'

/-! ## Blocks -/

def sequences (configs : List RedkeyConfig) : List Nat := configs.map RedkeyConfig.sequence

structure Blocks (w : World) : Prop where
  block : ∀ st ∈ w.history, Block (sequences st.configs)
  forward : w.history.Pairwise fun a b =>
    low (sequences a.configs) ≤ low (sequences b.configs) ∧
      top (sequences a.configs) ≤ top (sequences b.configs)
  /-- The store is at most one config ahead of what can still be read. -/
  cache : ∀ i st, w.seen.config ≤ i → w.history[i]? = some st →
    top (sequences w.store.configs) ≤ top (sequences st.configs) + 1

namespace Blocks

theorem store (h : Blocks w) : Block (sequences w.store.configs) := h.block _ w.store_mem_history

theorem le_store (h : Blocks w) {st : Store} (hs : st ∈ w.history) :
    low (sequences st.configs) ≤ low (sequences w.store.configs) ∧
      top (sequences st.configs) ≤ top (sequences w.store.configs) :=
  World.before_store h.forward ⟨le_rfl, le_rfl⟩ hs

theorem top_le (h : Blocks w) {i j : Nat} {a b : Store} (hij : i ≤ j)
    (ha : w.history[i]? = some a) (hb : w.history[j]? = some b) :
    top (sequences a.configs) ≤ top (sequences b.configs) :=
  (World.before_of_le h.forward ⟨le_rfl, le_rfl⟩ hij ha hb).2

theorem step (h : Blocks w) (hh : w.Extends w')
    (hb : Block (sequences w'.store.configs))
    (hl : low (sequences w.store.configs) ≤ low (sequences w'.store.configs))
    (ht : top (sequences w.store.configs) ≤ top (sequences w'.store.configs))
    (hc : ∀ i st, w'.seen.config ≤ i → w.history[i]? = some st →
      top (sequences w'.store.configs) ≤ top (sequences st.configs) + 1) : Blocks w' := by
  refine ⟨fun st hst => ?_, hh.pairwise h.forward fun st hst => ?_, fun i st hi hst => ?_⟩
  · obtain hst | rfl := hh.mem hst
    · exact h.block st hst
    · exact hb
  · obtain ⟨hlow, htop⟩ := h.le_store hst
    exact ⟨hlow.trans hl, htop.trans ht⟩
  · obtain hst | rfl := hh.getElem? hst
    · exact hc i st hi hst
    · exact Nat.le_succ _

/-- Steps that neither create nor delete configs. -/
theorem same (h : Blocks w) (hh : w.Extends w')
    (he : sequences w'.store.configs = sequences w.store.configs)
    (hs : w.seen.config ≤ w'.seen.config) : Blocks w' :=
  h.step hh (he ▸ h.store) (he ▸ le_rfl) (he ▸ le_rfl) fun i st hi hst =>
    he ▸ h.cache i st (hs.trans hi) hst

theorem ascending (h : Blocks w) {st : Store} (hs : st ∈ w.history) : Ascending st.configs :=
  List.pairwise_map.mp (h.block st hs).pairwise

/-- A listing of a version is sorted to the configs of that version. -/
theorem sorted (h : Blocks w) (hv : Versions req w) (hp : Provenance req w) {rk : Redkey}
    (hr : ReadRedkey req rk w) {st : Store} (hst : st ∈ w.history) {items : List RedkeyConfig}
    (hperm : items.Perm (st.configsOf clusterLabel rk.key.namespace_ rk.key.name)) :
    sortBySequence items = st.configs := by
  obtain ⟨a, ha, hrk⟩ := hr.mem
  rw [(hv.of_mem ha hrk).1, hp.configsOf hv hst] at hperm
  exact sortBySequence_eq hperm (h.ascending hst)

/-- A list read is the configs of a version that was readable. -/
theorem read (h : Blocks w) (hv : Versions req w) (hp : Provenance req w) {rk : Redkey}
    {configs : List RedkeyConfig} (hr : ReadRedkey req rk w) (hc : ReadConfigs rk configs w) :
    ∃ i st, w.floor.config ≤ i ∧ i ≤ w.seen.config ∧ w.history[i]? = some st ∧
      configs = st.configs := by
  obtain ⟨items, ⟨-, i, st, hf, hi, hst, hperm⟩, rfl⟩ := hc
  exact ⟨i, st, hf, hi, hst, h.sorted hv hp hr (List.mem_of_getElem? hst) hperm⟩

end Blocks

/-! ## Creations -/

/-- The configs created so far, newest first. -/
def creations (w : World) : List RedkeyConfig :=
  w.journal.filterMap fun
    | .created c => some c
    | _ => none

theorem mem_creations {c : RedkeyConfig} : c ∈ creations w ↔ .created c ∈ w.journal := by
  simp only [creations, List.mem_filterMap]
  constructor
  · rintro ⟨x, hx, he⟩
    cases x <;> cases he
    exact hx
  · exact fun h => ⟨_, h, rfl⟩

def GenerationBefore (c d : RedkeyConfig) : Prop :=
  ∃ g g', annotatedGeneration c = some g ∧ annotatedGeneration d = some g' ∧ g < g'

structure Births (w : World) : Prop where
  ordered : (creations w).Pairwise fun new old =>
    old.sequence < new.sequence ∧ GenerationBefore old new
  range : ∀ c ∈ creations w, 1 ≤ c.sequence ∧ c.sequence ≤ top (sequences w.store.configs)

/-- Creations are ordered by their sequences. -/
theorem Births.before (h : Births w) {c d : RedkeyConfig} (hc : c ∈ creations w)
    (hd : d ∈ creations w) : c = d ∨ (c.sequence < d.sequence ∧ GenerationBefore c d) ∨
      (d.sequence < c.sequence ∧ GenerationBefore d c) := by
  obtain ⟨i, hi, rfl⟩ := List.getElem_of_mem hc
  obtain ⟨j, hj, rfl⟩ := List.getElem_of_mem hd
  have hord := List.pairwise_iff_getElem.mp h.ordered
  rcases lt_trichotomy i j with hij | rfl | hij
  · exact .inr (.inr (hord i j hi hj hij))
  · exact .inl rfl
  · exact .inr (.inl (hord j i hj hi hij))

theorem nextSequence_getLast (configs : List RedkeyConfig) :
    nextSequence configs.getLast? = top (sequences configs) + 1 := by
  rw [top, sequences, List.getLast?_map]
  cases configs.getLast? <;> rfl

/-! ## Points -/

/-- What a Reconcile knows of the store's block. -/
def Position : Point → World → Prop
  | .listed _ configs, w => top (sequences w.store.configs) ≤ top (sequences configs) + 1
  | .pruning _ older _, w =>
    ∀ c, older.head? = some c → ∀ d ∈ w.store.configs, c.sequence ≤ d.sequence
  | _, _ => True

structure Lineaged (p : Point) (w : World) : Prop where
  blocks : Blocks w
  births : Births w
  position : Position p w

theorem Lineaged.same (h : Lineaged p w) (hh : w.Extends w')
    (he : sequences w'.store.configs = sequences w.store.configs) (hc : creations w' = creations w)
    (hs : w.seen.config ≤ w'.seen.config) : Lineaged p w' := by
  refine ⟨h.blocks.same hh he hs, ⟨hc ▸ h.births.ordered, fun c hcr => ?_⟩, ?_⟩
  · rw [he]; exact h.births.range c (hc ▸ hcr)
  · cases p with
    | listed rk configs =>
      have := h.position
      simp only [Position] at this ⊢
      rwa [he]
    | pruning rk older kept =>
      intro c hcd d hd
      have hm : d.sequence ∈ sequences w.store.configs := he ▸ List.mem_map_of_mem hd
      obtain ⟨d', hd', hds⟩ := List.mem_map.mp hm
      exact hds ▸ h.position c hcd d' hd'
    | _ => trivial

/-- The sequence computed from the list read is the next one of the store, if
its name is free. -/
theorem Lineaged.next_free {cluster : Redkey} {configs : List RedkeyConfig}
    (h : Lineaged (.listed cluster configs) w) (hv : Versions req w) (hp : Provenance req w)
    (hs : Sourced req (.listed cluster configs) w)
    (hn : w.store.config (newConfig cluster (nextSequence configs.getLast?)).key = none) :
    top (sequences configs) = top (sequences w.store.configs) := by
  obtain ⟨i, st, -, -, hst, rfl⟩ := h.blocks.read hv hp hs.1 hs.2
  have hle := (h.blocks.le_store (List.mem_of_getElem? hst)).2
  have hge : top (sequences w.store.configs) ≤ top (sequences st.configs) + 1 := h.position
  refine le_antisymm hle (not_lt.mp fun hlt => ?_)
  -- the store would be one ahead, with a config of that very name
  have htop : top (sequences w.store.configs) = top (sequences st.configs) + 1 := by omega
  obtain ⟨d, hd, hds⟩ := List.mem_map.mp (h.blocks.store.top_mem (by omega))
  refine Store.config_eq_none.mp hn d hd ?_
  obtain ⟨a, ha, hrk⟩ := hs.1.mem
  rw [hp.key hv w.store_mem_history hd, (madeFrom_newConfig cluster _).key,
    (hv.of_mem ha hrk).1, newConfig_sequence, nextSequence_getLast, hds, htop]

/-- A config created now is for a later generation than any before. -/
theorem Lineaged.generation_later {cluster : Redkey} {configs : List RedkeyConfig}
    (h : Lineaged (.listed cluster configs) w) (hv : Versions req w) (hp : Provenance req w)
    (hs : Sourced req (.listed cluster configs) w) (h0 : cluster.spec.primaries ≠ 0)
    (hcr : Creates cluster configs)
    (ht : top (sequences configs) = top (sequences w.store.configs)) {old : RedkeyConfig}
    (hold : old ∈ creations w) (seq : Nat) : GenerationBefore old (newConfig cluster seq) := by
  obtain ⟨a, ha, hrk⟩ := hs.1.mem
  have hnew := (madeFrom_newConfig cluster seq).annotated (hv.of_mem ha hrk).2
  obtain ⟨i, st, -, -, hst, rfl⟩ := h.blocks.read hv hp hs.1 hs.2
  have hst := List.mem_of_getElem? hst
  obtain ⟨hpos, hle⟩ := h.births.range old hold
  -- the latest config listed is the newest one created
  have hmem : top (sequences st.configs) ∈ sequences st.configs :=
    (h.blocks.block st hst).top_mem (by omega)
  obtain ⟨c, hc⟩ : ∃ c, st.configs.getLast? = some c := by
    cases hl : st.configs.getLast? with
    | none => simp [sequences, List.getLast?_eq_none_iff.mp hl] at hmem
    | some c => exact ⟨c, rfl⟩
  have hcseq : c.sequence = top (sequences w.store.configs) := by
    rw [← ht, top, sequences, List.getLast?_map, hc]
    rfl
  obtain ⟨rk', ⟨⟨b, hb, hrk'⟩, hsent⟩, hm⟩ := hp.made st hst c (List.mem_of_getLast? hc)
  have hg' := (hv.of_mem hb hrk').2
  have hlt : rk'.generation < cluster.generation := by
    rw [Creates, if_neg h0, hc] at hcr
    have hneed := hcr.resolve_left (by rintro he; simp [he] at hc)
    by_contra hge
    simp only [needsNewConfig, Option.bind_some, hm.annotated hg'] at hneed
    rw [if_pos (by omega)] at hneed
    cases hneed
  have hlast := (madeFrom_newConfig rk' c.sequence).annotated hg'
  obtain rfl | ⟨-, g, g', ha₁, ha₂, hgg⟩ | ⟨hlt', -⟩ := h.births.before hold (mem_creations.mpr hsent)
  · exact ⟨_, _, hlast, hnew, by exact_mod_cast hlt⟩
  · rw [hlast, Option.some.injEq] at ha₂
    exact ⟨g, _, ha₁, hnew, by omega⟩
  · rw [newConfig_sequence, hcseq] at hlt'
    omega

theorem Lineaged.created {cluster : Redkey} {configs : List RedkeyConfig}
    (h : Lineaged (.listed cluster configs) w) (hv : Versions req w) (hp : Provenance req w)
    (hs : Sourced req (.listed cluster configs) w) (h0 : cluster.spec.primaries ≠ 0)
    (hcr : Creates cluster configs)
    (hn : w.store.config (newConfig cluster (nextSequence configs.getLast?)).key = none)
    (hw : w' = w.commit { w.store with configs := w.store.configs ++
      [newConfig cluster (nextSequence configs.getLast?)] }
      [.created (newConfig cluster (nextSequence configs.getLast?))]) : Blocks w' ∧ Births w' := by
  have ht := h.next_free hv hp hs hn
  have hnext : nextSequence configs.getLast? = top (sequences w.store.configs) + 1 := by
    rw [nextSequence_getLast, ht]
  have hseqs : sequences w'.store.configs =
      sequences w.store.configs ++ [top (sequences w.store.configs) + 1] := by
    rw [hw, World.store_commit, sequences, List.map_append, List.map_singleton, newConfig_sequence,
      hnext]
    rfl
  obtain ⟨hb, hlow, htop⟩ := h.blocks.store.append
  rw [← hseqs] at hb hlow htop
  have hcs : creations w' = newConfig cluster (nextSequence configs.getLast?) :: creations w := by
    rw [hw]; rfl
  refine ⟨h.blocks.step (.inr (by rw [hw]; rfl)) hb hlow.ge (by omega) fun i st hi hst => ?_, ?_, ?_⟩
  · -- what can still be read is not older than the list just used
    obtain ⟨j, st', -, hj, hst', rfl⟩ := h.blocks.read hv hp hs.1 hs.2
    have hi : w.seen.config ≤ i := by rw [hw] at hi; exact hi
    have : top (sequences st'.configs) ≤ top (sequences st.configs) :=
      h.blocks.top_le (hj.trans hi) hst' hst
    omega
  · rw [hcs, List.pairwise_cons]
    refine ⟨fun old hold => ⟨?_, h.generation_later hv hp hs h0 hcr ht hold _⟩, h.births.ordered⟩
    have := (h.births.range old hold).2
    rw [newConfig_sequence, hnext]
    omega
  · intro c hc
    rw [hcs, List.mem_cons] at hc
    obtain rfl | hc := hc
    · rw [newConfig_sequence]; omega
    · have := h.births.range c hc
      omega

/-- The config about to be pruned, in the list it was read from. -/
theorem Blocks.pruned (h : Blocks w) (hv : Versions req w) (hp : Provenance req w)
    {cluster : Redkey} {c : RedkeyConfig} {older kept : List RedkeyConfig}
    (hs : Sourced req (.pruning cluster (c :: older) kept) w) :
    ∃ st ∈ w.history, ∃ gone, st.configs = gone ++ c :: (older ++ kept) ∧ kept ≠ [] := by
  obtain ⟨hr, -, all, gone, ha, htake, hk⟩ := hs
  obtain ⟨i, st, -, -, hst, rfl⟩ := h.read hv hp hr ha
  refine ⟨st, List.mem_of_getElem? hst, gone, ?_, ?_⟩
  · rw [← List.take_append_drop (lastAppliedIndex st.configs) st.configs, htake, ← hk]
    simp
  · -- something is pruned only in front of an Applied config
    have hap : ∃ d ∈ st.configs, d.phase = .applied := by
      by_contra hno
      push Not at hno
      rw [lastAppliedIndex_eq_zero hno] at htake
      simp at htake
    obtain ⟨d, rest, hd, -⟩ := drop_lastAppliedIndex hap
    simp [hk, hd]

/-- Pruning deletes the first config of the store's block and never the last. -/
theorem Lineaged.deleted {cluster : Redkey} {c d : RedkeyConfig} {older kept : List RedkeyConfig}
    (h : Lineaged (.pruning cluster (c :: older) kept) w) (hv : Versions req w)
    (hp : Provenance req w) (hs : Sourced req (.pruning cluster (c :: older) kept) w)
    (hd : w.store.config c.key = some d) :
    ∃ rest, w.store.configs = d :: rest ∧ (w.store.removeConfig c.key).configs = rest ∧
      rest ≠ [] := by
  obtain ⟨st, hst, gone, hall, hkept⟩ := h.blocks.pruned hv hp hs
  obtain ⟨hdm, hdk⟩ := Store.config_mem hd
  have hc : c ∈ st.configs := by simp [hall]
  have hseq : d.sequence = c.sequence := by
    rw [hp.key hv w.store_mem_history hdm, hp.key hv hst hc] at hdk
    exact (configName_injective (congrArg NamespacedName.name hdk)).2
  have hmin : ∀ e ∈ w.store.configs, d.sequence ≤ e.sequence := fun e he =>
    hseq ▸ h.position c rfl e he
  have hasc := h.blocks.ascending w.store_mem_history
  -- the kept configs come later, so the block goes on after `d`
  have hlater : d.sequence < top (sequences w.store.configs) := by
    obtain ⟨k, ks, rfl⟩ := List.exists_cons_of_ne_nil hkept
    have hk : c.sequence < k.sequence := by
      have := h.blocks.ascending hst
      rw [hall, Ascending, List.pairwise_append, List.pairwise_cons] at this
      exact this.2.1.1 k (by simp)
    have hkm : k.sequence ∈ sequences st.configs := List.mem_map_of_mem (by simp [hall])
    have := ((h.blocks.block st hst).mem.mp hkm).2
    have := (h.blocks.le_store hst).2
    omega
  obtain ⟨e, rest, hrest⟩ := List.exists_cons_of_ne_nil (List.ne_nil_of_mem hdm)
  have hed : d = e := by
    rw [hrest, Ascending, List.pairwise_cons] at hasc
    rw [hrest] at hdm
    rcases List.mem_cons.mp hdm with rfl | hm
    · rfl
    · have := hasc.1 d hm
      have := hmin e (by simp [hrest])
      omega
  subst hed
  refine ⟨rest, hrest, ?_, ?_⟩
  · have hne : ∀ f ∈ rest, f.key ≠ c.key := by
      intro f hf hk
      have hnd := hp.keys _ w.store_mem_history
      rw [hrest, List.map_cons, List.nodup_cons] at hnd
      exact hnd.1 (hdk ▸ hk ▸ List.mem_map_of_mem hf)
    simp only [Store.removeConfig, hrest, List.filter_cons, hdk, bne_self_eq_false,
      Bool.false_eq_true, if_false]
    exact List.filter_eq_self.mpr fun f hf => by simpa using hne f hf
  · rintro rfl
    rw [hrest] at hlater
    simp [sequences, top] at hlater

/-- Pruning starts at or below the first stored config. -/
theorem Blocks.position_prune (h : Blocks w) {st : Store} (hst : st ∈ w.history)
    (cluster : Redkey) : Position (.prune cluster st.configs) w := by
  intro c hc d hd
  rw [List.head?_take] at hc
  split at hc
  · cases hc
  · have hlow : low (sequences st.configs) = c.sequence := by
      rw [low, sequences, List.head?_map, hc]; rfl
    have hdm : d.sequence ∈ sequences w.store.configs := List.mem_map_of_mem hd
    have := (h.store.mem.mp hdm).1
    have := (h.le_store hst).1
    omega

/-- Once `c` is gone the next config to prune is at or below the first stored one. -/
theorem Lineaged.position_pruned {cluster : Redkey} {c : RedkeyConfig}
    {older kept : List RedkeyConfig} (h : Lineaged (.pruning cluster (c :: older) kept) w)
    (hv : Versions req w) (hp : Provenance req w)
    (hs : Sourced req (.pruning cluster (c :: older) kept) w)
    (hsub : ∀ d ∈ w'.store.configs, d ∈ w.store.configs ∧ d.key ≠ c.key) :
    Position (.pruning cluster older kept) w' := by
  intro c' hc' d hd
  obtain ⟨hd, hk⟩ := hsub d hd
  obtain ⟨st, hst, gone, hall, -⟩ := h.blocks.pruned hv hp hs
  have hle : c.sequence ≤ d.sequence := h.position c rfl d hd
  have hne : c.sequence ≠ d.sequence := by
    intro he
    refine hk ?_
    rw [hp.key hv w.store_mem_history hd, hp.key hv hst (show c ∈ st.configs by simp [hall]), he]
  have hsucc : c'.sequence = c.sequence + 1 := by
    obtain ⟨rest, rfl⟩ := List.head?_eq_some_iff.mp hc'
    have hb := h.blocks.block st hst
    rw [hall, sequences] at hb
    simp only [List.map_append, List.map_cons, List.cons_append] at hb
    exact hb.succ
  omega

theorem Lineaged.env {e : Ev} (h : Lineaged p w) (hv : Versions req w) (hp : Provenance req w)
    (he : env e w = some w') : Lineaged p w' := by
  cases e with
  | update key spec =>
    obtain ⟨rk, -, -, rfl⟩ := env_update he
    exact h.same (.inr rfl) rfl rfl le_rfl
  | robin key s =>
    obtain ⟨c, -, rfl⟩ := env_robin he
    refine h.same (.inr rfl) ?_ ?_ le_rfl
    · simp only [World.store_commit, Store.setConfigStatus, sequences, List.map_map]
      refine List.map_congr_left fun d _ => ?_
      simp only [Function.comp_apply]
      split <;> rfl
    · simp only [creations, World.journal_commit, moves]
      split <;> simp
  | collect key => exact absurd he (hp.not_collected hv)

theorem Lineaged.effect (h : Lineaged p w) (hv : Versions req w) (hp : Provenance req w)
    (hs : Sourced req p w) (hrun : Running req w) (he : Effect T req p w w') :
    Blocks w' ∧ Births w' := by
  have keep : Lineaged p w' → Blocks w' ∧ Births w' := fun h => ⟨h.blocks, h.births⟩
  cases he with
  | quiet hq =>
    exact keep (h.same hq.history (by rw [hq.configs]) (by rw [creations, hq.journal]; rfl)
      hq.seenConfig.ge)
  | sawRedkey => exact keep (h.same (.inl rfl) rfl rfl le_rfl)
  | sawConfigs => exact keep (h.same (.inl rfl) rfl rfl (le_max_left _ _))
  | updated => exact keep (h.same (.inr rfl) rfl rfl le_rfl)
  | created hi ok hn =>
    obtain ⟨cluster, configs, rfl, hcr, rfl⟩ := hi.of_createConfig
    obtain ⟨st, hst, hrk⟩ := hs.1.mem
    exact h.created hv hp hs (hrun st hst cluster hrk).ne' hcr hn rfl
  | deleted hi ok hc =>
    obtain ⟨cluster, c, older, kept, rfl, rfl⟩ | ⟨cluster, c, items, rfl, rfl⟩ := hi.of_deleteConfig
    · obtain ⟨rest, hcs, hrest, hne⟩ := h.deleted hv hp hs hc
      have hb := h.blocks.store
      rw [hcs, sequences, List.map_cons] at hb
      obtain ⟨hb, hlow, htop⟩ := hb.tail (by simpa using hne)
      have hlow' : low (sequences w.store.configs) + 1 = low (sequences rest) := by
        rw [hcs]; exact hlow.symm
      have htop' : top (sequences rest) = top (sequences w.store.configs) := by rw [hcs]; exact htop
      refine ⟨h.blocks.step (.inr rfl) ?_ ?_ ?_ fun i st hi hst => ?_, h.births.ordered,
        fun d hd => ?_⟩
      · rw [World.store_commit, hrest]; exact hb
      · rw [World.store_commit, hrest]; omega
      · rw [World.store_commit, hrest]; omega
      · rw [World.store_commit, hrest, htop']
        exact h.blocks.cache i st hi hst
      · rw [World.store_commit, hrest, htop']
        exact h.births.range d hd
    · obtain ⟨st, hst, hrk⟩ := hs.1.mem
      exact absurd hs.2.1 (hrun st hst cluster hrk).ne'

theorem Runs.lineaged (h : Runs (staysRunning req) req w₀ p w) (hf : Fresh req w₀)
    (hpos : ∀ rk, w₀.store.redkeys req = some rk → 0 < rk.spec.primaries) : Lineaged p w := by
  induction h using Runs.induct with
  | init =>
    refine ⟨⟨?_, ?_, ?_⟩, ⟨?_, ?_⟩, trivial⟩
    · intro st hst
      rw [hf.history, List.mem_singleton] at hst
      rw [hst, hf.configs]
      exact .nil
    · rw [hf.history]; exact List.pairwise_singleton _ _
    · intro i st _ _
      simp [hf.configs, sequences, top]
    · simp [creations, hf.journal]
    · simp [creations, hf.journal]
  | env p e w w' h ok hw ih => exact ih.env (h.versions hf.versions) (h.provenance hf) hw
  | enter p w h ih =>
    have hl : Lineaged p (enter w) := ih.same (.inl rfl) rfl rfl le_rfl
    exact ⟨hl.blocks, hl.births, trivial⟩
  | silent p q w h hq ih =>
    refine ⟨ih.blocks, ih.births, ?_⟩
    cases hq with
    | reuse h0 hc =>
      have hs := h.sourced hf.cursors
      obtain ⟨i, st, -, -, hst, rfl⟩ :=
        ih.blocks.read (h.versions hf.versions) (h.provenance hf) hs.1 hs.2
      exact ih.blocks.position_prune (List.mem_of_getElem? hst) _
    | _ => trivial
  | call p q w w' c o res h hq ok hw ih =>
    have hv := h.versions hf.versions
    have hp := h.provenance hf
    have hs := h.sourced hf.cursors
    obtain ⟨hb, hbi⟩ := ih.effect hv hp hs (h.running hf hpos) (hq.issues.effect ok hw)
    refine ⟨hb, hbi, ?_⟩
    cases hq with
    | stay _ hc =>
      have hqt := quiet_answer hc hw
      exact (ih.same hqt.history (by rw [hqt.configs]) (by rw [creations, hqt.journal]; rfl)
        hqt.seenConfig.ge).position
    | list =>
      obtain ⟨i, st, hview, hperm, rfl⟩ := answer_listConfigs_ok hw
      have hc := h.cursors hf.cursors
      obtain ⟨hi, hst⟩ := view_spec (hc.config.trans hc.seenConfig) hview
      have hunread : w.floor.config = w.seen.config := h.unread
      show top (sequences w.store.configs) ≤ top (sequences (sortBySequence _)) + 1
      rw [ih.blocks.sorted hv hp hs (List.mem_of_getElem? hst) hperm]
      exact ih.blocks.cache i st (hunread ▸ hi) hst
    | relist h0 =>
      obtain ⟨i, st, hview, hperm, rfl⟩ := answer_listConfigs_ok hw
      have hc := h.cursors hf.cursors
      have hst := List.mem_of_getElem? (view_spec (hc.config.trans hc.seenConfig) hview).2
      rw [ih.blocks.sorted hv hp hs hst hperm]
      exact hb.position_prune hst _
    | prune hr =>
      refine ih.position_pruned hv hp hs fun d hd => ?_
      obtain rfl | rfl := hr
      · obtain ⟨st, hst, rfl⟩ := answer_write_ok hw
        obtain ⟨e, -, rfl⟩ := apply_deleteConfig hst
        exact Store.mem_removeConfig.mp hd
      · obtain ⟨rfl, he⟩ := answer_write_rejected hw (by decide)
        exact ⟨hd, Store.config_eq_none.mp (apply_deleteConfig_error he).2 d hd⟩
    | _ => trivial

/-! ## The lineage -/

/-- The lineage of the configs of one cluster. -/
structure ConfigLineage (req : NamespacedName) (w : World) : Prop where
  /-- Distinct and consecutive sequences. -/
  contiguous : ∃ lo, sequences w.store.configs = List.range' lo w.store.configs.length
  increasing : ∀ c ∈ w.store.configs, ∀ d ∈ w.store.configs, c.sequence < d.sequence →
    GenerationBefore c d
  bounded : ∀ c ∈ w.store.configs, ∀ rk, w.store.redkeys req = some rk →
    ∃ g, annotatedGeneration c = some g ∧ g ≤ rk.generation
  /-- At most one config is ever created for a generation. -/
  once : ((creations w).map annotatedGeneration).Nodup
  /-- A config is the snapshot of the spec at its generation. -/
  snapshot : ∀ c ∈ w.store.configs, ∃ st ∈ w.history, ∃ rk, st.redkeys req = some rk ∧
    annotatedGeneration c = some (rk.generation : Int) ∧ c.spec = configSpec rk.spec c.sequence
  observed : w.history.Pairwise (ObservedLe req)

/-- In every run that keeps the cluster running, with stale reads and failing
calls, the configs have one lineage. -/
theorem config_lineage {r : RedkeyReconciler} {s : State server Result} (hf : Fresh req w₀)
    (hpos : ∀ rk, w₀.store.redkeys req = some rk → 0 < rk.spec.primaries)
    (h : Reaches (staysRunning req) (reconcile r req) ⟨w₀, none⟩ s) : ConfigLineage req s.world := by
  obtain ⟨p, hr⟩ := reconcile_runs h
  have hv := hr.versions hf.versions
  have hp := hr.provenance hf
  have hl := hr.lineaged hf hpos
  have hmade := hp.made _ s.world.store_mem_history
  refine ⟨⟨low (sequences s.world.store.configs), ?_⟩, fun c hc d hd hlt => ?_,
    fun c hc rk hrk => ?_, ?_, fun c hc => ?_, hr.observedForward hf.toNewborn⟩
  · exact hl.blocks.store.eq.trans (by rw [sequences, List.length_map])
  · obtain ⟨rk, ⟨-, hsent⟩, hm⟩ := hmade c hc
    obtain ⟨rk', ⟨-, hsent'⟩, hm'⟩ := hmade d hd
    have hcg : annotatedGeneration (newConfig rk c.sequence) = annotatedGeneration c := by
      rw [annotatedGeneration, annotatedGeneration, hm.1]
    have hdg : annotatedGeneration (newConfig rk' d.sequence) = annotatedGeneration d := by
      rw [annotatedGeneration, annotatedGeneration, hm'.1]
    obtain he | ⟨-, hb⟩ | ⟨hgt, -⟩ :=
      hl.births.before (mem_creations.mpr hsent) (mem_creations.mpr hsent')
    · have := congrArg RedkeyConfig.sequence he
      simp only [newConfig_sequence] at this
      omega
    · rwa [GenerationBefore, hcg, hdg] at hb
    · simp only [newConfig_sequence] at hgt
      omega
  · obtain ⟨rk', ⟨⟨st, hst, hrk'⟩, -⟩, hm⟩ := hmade c hc
    refine ⟨_, hm.annotated (hv.of_mem hst hrk').2, ?_⟩
    exact_mod_cast ((hv.precedes_store hst).precedes hrk' hrk).generation
  · rw [List.Nodup, List.pairwise_map]
    refine hl.births.ordered.imp fun hb he => ?_
    obtain ⟨-, g, g', hg, hg', hlt⟩ := hb
    rw [hg, hg', Option.some.injEq] at he
    omega
  · obtain ⟨rk', ⟨⟨st, hst, hrk'⟩, -⟩, hm⟩ := hmade c hc
    exact ⟨st, hst, rk', hrk', hm.annotated (hv.of_mem hst hrk').2, hm.2⟩

set_option maxRecDepth 100000 in
/-- Two generations of the sample cluster, the second read from a stale list and
its status update lost. -/
theorem config_lineage_sample :
    ∃ s, Reaches (staysRunning sampleKey) sampleReconcile ⟨sampleWorld 3, none⟩ s ∧
      sequences s.world.store.configs = [1, 2] ∧ ConfigLineage sampleKey s.world := by
  obtain ⟨s, hs, ht⟩ : ∃ s,
      Reaches (staysRunning sampleKey) sampleReconcile ⟨sampleWorld 3, none⟩ s ∧
        decide (sequences s.world.store.configs = [1, 2]) = true :=
    exists_reaches_of_play (undisturbed ++ [scaleTo 5, .event .start, .drain .ok 5,
      .event (.call (.stale 5 [0])), .drain .ok 5, .event (.call .lost), .event .stop]) _
      (by decide +kernel)
  refine ⟨s, hs, by simpa using ht, config_lineage (fresh_sampleWorld 3) (fun rk hrk => ?_) hs⟩
  rw [redkeys_sampleWorld] at hrk
  cases hrk
  decide

end RedkeyOperator.Protocol
