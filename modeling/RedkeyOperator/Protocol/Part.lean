import RedkeyOperator.Protocol.Isolation

/-! # The part of a store that is about one Redkey

A store holds the objects of many Redkeys. `partOf` keeps those of one. A write
about that Redkey is judged by its part and changes nothing else of it; a write
about another leaves it alone, and so it is with users, Robins and the garbage
collector. -/
namespace RedkeyOperator.Protocol
open RedkeyOperator.Api RedkeyOperator.Kube RedkeyOperator.Interleave RedkeyOperator.Controller

variable {a b : NamespacedName} {st st' : Store} {c d : RedkeyConfig}

/-- A config of the cluster `a`, by what a List of its configs selects. -/
def isOf (a : NamespacedName) (c : RedkeyConfig) : Bool :=
  c.key.namespace_ == a.namespace_ && c.metadata.labels.get clusterLabel == some a.name

def partOf (a : NamespacedName) (st : Store) : Store where
  redkeys key := if key = a then st.redkeys key else none
  configs := st.configs.filter (isOf a)
  robin k key := if key = robinKeyOf a then st.robin k key else none

theorem isOf_iff (h : OperatorMade st) (hc : c ∈ st.configs) :
    isOf a c = true ↔ Belongs a (.config c.key) := by
  constructor
  · intro hof
    exact h.belongs (List.mem_filter.mpr ⟨hc, hof⟩)
  · intro hb
    obtain ⟨rk, hmade⟩ := h.made c hc
    obtain ⟨n, hn⟩ := hb
    rw [hmade.key] at hn
    obtain ⟨hns, hname⟩ := NamespacedName.mk.inj hn
    have hk := (configName_injective hname).1
    simp [isOf, hmade.label, hmade.key, hns, hk]

theorem isOf_newConfig (rk : Redkey) (seq : Nat) : isOf rk.key (newConfig rk seq) = true := by
  have hmade := madeFrom_newConfig rk seq
  simp [isOf, hmade.label, hmade.key]

theorem isOf_unique (ha : isOf a c = true) (hb : isOf b c = true) : a = b := by
  simp only [isOf, Bool.and_eq_true, beq_iff_eq] at ha hb
  obtain ⟨hns, hname⟩ := ha
  obtain ⟨hns', hname'⟩ := hb
  rw [hname, Option.some.injEq] at hname'
  cases a
  cases b
  exact congrArg₂ _ (hns.symm.trans hns') hname'

theorem sameCluster_eq (h : isOf a c = true) : sameCluster c d = isOf a d := by
  simp only [isOf, Bool.and_eq_true, beq_iff_eq] at h
  obtain ⟨hns, hname⟩ := h
  rw [sameCluster, isOf, hns, hname, Bool.beq_comm,
    Bool.beq_comm (a := some a.name)]

theorem config_partOf (h : OperatorMade st) {key : NamespacedName}
    (hk : Belongs a (.config key)) : (partOf a st).config key = st.config key := by
  simp only [Store.config, partOf, ← List.head?_filter, List.filter_filter]
  refine congrArg List.head? (List.filter_congr fun c hc => ?_)
  by_cases he : c.key = key
  · simp [he, (isOf_iff h hc).mpr (he ▸ hk)]
  · simp [he]

/-! ## Changes -/

theorem partOf_setRedkey {rk : Redkey} (h : rk.key = a) :
    partOf a (st.setRedkey rk) = (partOf a st).setRedkey rk := by
  subst h
  simp only [partOf, Store.setRedkey, Store.mk.injEq, and_true]
  funext key
  by_cases hk : key = rk.key
  · subst hk
    simp
  · simp [hk]

theorem partOf_setRedkey_of_ne {rk : Redkey} (h : rk.key ≠ a) :
    partOf a (st.setRedkey rk) = partOf a st := by
  simp only [partOf, Store.setRedkey, Store.mk.injEq, and_true]
  funext key
  by_cases hk : key = a
  · subst hk
    simp [Ne.symm h]
  · simp [hk]

theorem partOf_setRobin {k : Kind} (o : Option (Obj k)) :
    partOf a (st.setRobin k (robinKeyOf a) o) = (partOf a st).setRobin k (robinKeyOf a) o := by
  simp only [partOf, Store.setRobin, Store.mk.injEq, true_and]
  funext k' key
  by_cases hk : k' = k
  · subst hk
    by_cases hkey : key = robinKeyOf a
    · simp [hkey]
    · simp [hkey]
  · simp [hk]

theorem partOf_addConfig (h : isOf a c = true) :
    partOf a { st with configs := st.configs ++ [c] } =
      { partOf a st with configs := (partOf a st).configs ++ [c] } := by
  simp [partOf, List.filter_append, h]

theorem partOf_removeConfig (key : NamespacedName) :
    partOf a (st.removeConfig key) = (partOf a st).removeConfig key := by
  simp only [partOf, Store.removeConfig, Store.mk.injEq, true_and, and_true]
  exact List.filter_comm ..

theorem partOf_setConfigStatus (key : NamespacedName) (s : RedkeyConfigStatus) :
    partOf a (st.setConfigStatus key s) = (partOf a st).setConfigStatus key s := by
  simp only [partOf, Store.setConfigStatus, Store.mk.injEq, true_and, and_true]
  rw [List.filter_map]
  congr 1
  refine List.filter_congr fun c _ => ?_
  simp only [Function.comp_apply]
  split <;> rfl

/-- Stores that agree on the objects of a Redkey have the same part for it. -/
theorem partOf_congr (h : OperatorMade st) (h' : OperatorMade st')
    (hag : st.AgreeOn (Belongs a) st') : partOf a st = partOf a st' := by
  simp only [partOf, Store.mk.injEq]
  refine ⟨funext fun key => ?_, ?_, funext fun k => funext fun key => ?_⟩
  · split
    · exact hag.redkeys key (by assumption)
    · rfl
  · exact hag.filter_configs (fun c hc => (isOf_iff h hc).mp) fun c hc => (isOf_iff h' hc).mp
  · split
    · exact hag.robin k key (by assumption)
    · rfl

/-! ## Writes -/

/-- A write about the Redkey is judged by its part of the store, and done to it. -/
theorem apply_partOf {x : Write} (h : OperatorMade st) (hx : Own a (.write x)) :
    (partOf a st).apply x = (st.apply x).map (partOf a) := by
  cases x with
  | updateStatus rk =>
    have hk : rk.key = a := hx
    have hr : (partOf a st).redkeys rk.key = st.redkeys rk.key := if_pos hk
    simp only [Store.apply, hr]
    cases hcur : st.redkeys rk.key with
    | none => rfl
    | some cur =>
      have hkey : (cur.withStatus rk.status).key = a := (h.keyed _ _ hcur).trans hk
      simp only
      split
      · rw [← partOf_setRedkey hkey]
        rfl
      · rfl
  | createConfig c =>
    obtain ⟨rk, seq, rfl, rfl⟩ := hx
    have hb : Belongs rk.key (.config (newConfig rk seq).key) := ⟨seq, rfl⟩
    simp only [Store.apply, config_partOf h hb]
    split
    · rfl
    · rw [← partOf_addConfig (isOf_newConfig rk seq)]
      rfl
  | deleteConfig key =>
    have hb : Belongs a (.config key) := hx
    simp only [Store.apply, config_partOf h hb]
    split
    · rw [← partOf_removeConfig]
      rfl
    · rfl
  | create k o =>
    have hk : o.metadata.key = robinKeyOf a := hx
    have hr : (partOf a st).robin k o.metadata.key = st.robin k o.metadata.key := if_pos hk
    simp only [Store.apply, hr]
    split
    · rfl
    · rw [hk, ← partOf_setRobin]
      rfl
  | patch k o =>
    have hk : o.metadata.key = robinKeyOf a := hx
    have hr : (partOf a st).robin k o.metadata.key = st.robin k o.metadata.key := if_pos hk
    simp only [Store.apply, hr]
    cases st.robin k o.metadata.key with
    | none => rfl
    | some stored =>
      simp only
      rw [hk, ← partOf_setRobin]
      rfl
  | delete k key =>
    have hk : key = robinKeyOf a := hx
    have hr : (partOf a st).robin k key = st.robin k key := if_pos hk
    simp only [Store.apply, hr]
    split
    · rw [hk, ← partOf_setRobin]
      rfl
    · rfl

theorem belongs_object {x : Write} (hx : Own b (.write x)) : Belongs b x.object := by
  cases x with
  | createConfig c =>
    obtain ⟨rk, seq, rfl, rfl⟩ := hx
    exact ⟨seq, rfl⟩
  | _ => exact hx

/-- A write about another Redkey leaves it alone. -/
theorem partOf_apply_of_ne {x : Write} (h : OperatorMade st) (hab : b ≠ a)
    (hx : Own b (.write x)) (hs : st.apply x = .ok st') : partOf a st' = partOf a st := by
  have hobj : ¬Belongs a x.object := fun ha => hab ((belongs_object hx).unique ha)
  exact (partOf_congr h (h.apply hx hs) (Store.apply_elsewhere h.keyed hobj hs)).symm

/-! ## The journal -/

def concerns (a : NamespacedName) : Happening → Bool
  | .created c | .moved c | .deleted c _ | .collected c => isOf a c

theorem any_sameCluster (h : isOf a c = true) :
    (partOf a st).configs.any (sameCluster c) = st.configs.any (sameCluster c) := by
  simp only [partOf, List.any_filter]
  refine congrArg (st.configs.any ·) (funext fun d => ?_)
  rw [sameCluster_eq h, Bool.and_self]

theorem happenings_partOf {x : Write} (h : OperatorMade st) (hx : Own a (.write x)) :
    happenings x (partOf a st) (partOf a st') = (happenings x st st').filter (concerns a) := by
  cases x with
  | createConfig c =>
    obtain ⟨rk, seq, rfl, rfl⟩ := hx
    simp [happenings, concerns, isOf_newConfig]
  | deleteConfig key =>
    have hb : Belongs a (.config key) := hx
    simp only [happenings, config_partOf h hb]
    cases hc : st.config key with
    | none => rfl
    | some c =>
      obtain ⟨hmem, hkey⟩ := Store.config_mem hc
      have hof := (isOf_iff h hmem).mpr (hkey ▸ hb)
      simp [any_sameCluster hof, concerns, hof]
  | _ => rfl

theorem happenings_of_ne {x : Write} (h : OperatorMade st) (hab : b ≠ a)
    (hx : Own b (.write x)) : (happenings x st st').filter (concerns a) = [] := by
  have other : ∀ {c : RedkeyConfig}, isOf b c = true → isOf a c = false := fun hb =>
    Bool.eq_false_iff.mpr fun ha => hab (isOf_unique hb ha)
  cases x with
  | createConfig c =>
    obtain ⟨rk, seq, rfl, rfl⟩ := hx
    simp [happenings, concerns, other (isOf_newConfig rk seq)]
  | deleteConfig key =>
    have hb : Belongs b (.config key) := hx
    simp only [happenings]
    cases hc : st.config key with
    | none => rfl
    | some c =>
      obtain ⟨hmem, hkey⟩ := Store.config_mem hc
      simp [concerns, other ((isOf_iff h hmem).mpr (hkey ▸ hb))]
  | _ => rfl

/-! ## Users, Robins and the garbage collector -/

theorem setConfigStatus_of_absent {key : NamespacedName} (h : st.config key = none)
    (s : RedkeyConfigStatus) : st.setConfigStatus key s = st := by
  have hkeys := Store.config_eq_none.mp h
  have hmap : (st.configs.map fun c => if c.key == key then { c with status := s } else c) =
      st.configs := by
    refine (List.map_congr_left fun c hc => ?_).trans (List.map_id' _)
    simp [hkeys c hc]
  simp only [Store.setConfigStatus, hmap]

theorem removeConfig_of_absent {key : NamespacedName} (h : st.config key = none) :
    st.removeConfig key = st := by
  have hkeys := Store.config_eq_none.mp h
  have hfilter : (st.configs.filter fun c => c.key != key) = st.configs := by
    refine List.filter_eq_self.mpr fun c hc => ?_
    simp [hkeys c hc]
  simp only [Store.removeConfig, hfilter]

/-- A stored config is in the part of its cluster and in no other. -/
theorem config_partOf_of_config (h : OperatorMade st) {key : NamespacedName}
    (hc : st.config key = some c) :
    (partOf a st).config key = if isOf a c then some c else none := by
  obtain ⟨hmem, hkey⟩ := Store.config_mem hc
  split
  · rename_i hof
    rw [config_partOf h (hkey ▸ (isOf_iff h hmem).mp hof), hc]
  · rename_i hof
    refine Store.config_eq_none.mpr fun d hd hdk => hof ?_
    obtain ⟨hd, hofd⟩ := List.mem_filter.mp hd
    have hb := (isOf_iff h hd).mp hofd
    rw [hdk, ← hkey] at hb
    exact (isOf_iff h hmem).mpr hb

theorem parent_partOf (h : isOf a c = true) : parent (partOf a st) c = parent st c := by
  simp only [isOf, Bool.and_eq_true, beq_iff_eq] at h
  obtain ⟨hns, hname⟩ := h
  simp [parent, hname, hns, partOf]

theorem concerns_moves (h : isOf a c = true) (s : RedkeyConfigStatus) :
    (moves c s).filter (concerns a) = moves c s := by
  refine List.filter_eq_self.mpr fun e he => ?_
  rw [(eq_of_mem_moves he).1]
  exact h

theorem concerns_moves_of_not (h : ¬isOf a c = true) (s : RedkeyConfigStatus) :
    (moves c s).filter (concerns a) = [] := by
  refine List.filter_eq_nil_iff.mpr fun e he => ?_
  rw [(eq_of_mem_moves he).1]
  exact h

end RedkeyOperator.Protocol
