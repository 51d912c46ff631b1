import RedkeyOperator.Kube.Fleet

/-! Redkeys are stored under their own names, whoever writes. -/
namespace RedkeyOperator.Kube
open RedkeyOperator.Api RedkeyOperator.Interleave

variable {st st' : Store} {w w' : World}

def Store.Named (st : Store) : Prop := ∀ key rk, st.redkeys key = some rk → rk.key = key

theorem Store.Named.set (h : st.Named) (rk : Redkey) : (st.setRedkey rk).Named := by
  intro key' rk' hrk'
  by_cases he : key' = rk.key
  · subst he
    rw [show (st.setRedkey rk).redkeys rk.key = some rk from Function.update_self ..] at hrk'
    cases hrk'
    rfl
  · exact h key' rk' ((Function.update_of_ne he _ _).symm.trans hrk')

theorem Store.Named.apply {x : Write} (h : st.Named) (hx : st.apply x = .ok st') : st'.Named := by
  cases x with
  | updateStatus rk =>
    obtain ⟨cur, -, -, rfl⟩ := apply_updateStatus hx
    exact h.set _
  | createConfig c => obtain ⟨-, rfl⟩ := apply_createConfig hx; exact h
  | deleteConfig key => obtain ⟨_, -, rfl⟩ := apply_deleteConfig hx; exact h
  | create k o => obtain ⟨-, rfl⟩ := apply_create hx; exact h
  | patch k o => obtain ⟨_, -, rfl⟩ := apply_patch hx; exact h
  | delete k key => obtain rfl := apply_delete hx; exact h

/-- In every version of the store. -/
def World.Named (w : World) : Prop := ∀ st ∈ w.history, st.Named

namespace World.Named

theorem extend (h : w.Named) (hs : w'.store.Named) (hx : w.Extends w') : w'.Named := by
  intro st hst
  rcases hx.mem hst with hst | rfl
  · exact h st hst
  · exact hs

theorem congr (h : w.Named) (hs : w'.store = w.store) (hp : w'.past = w.past) : w'.Named := by
  intro st hst
  rw [World.history, hs, hp] at hst
  exact h st hst

theorem env {e : Ev} (h : w.Named) (he : env e w = some w') : w'.Named := by
  refine h.extend ?_ (env_extends he)
  have hs := h _ w.store_mem_history
  cases e with
  | update key spec => obtain ⟨rk, -, -, rfl⟩ := env_update he; exact hs.set _
  | robin key s => obtain ⟨c, -, rfl⟩ := env_robin he; exact hs
  | collect key => obtain ⟨c, -, -, rfl⟩ := env_collect he; exact hs

theorem answer {c : Call} {o : Outcome} {r : Except ApiError (Reply c)} (h : w.Named)
    (hans : answer c o w = some (r, w')) : w'.Named := by
  rcases answer_shared hans with ⟨hs, hp, -⟩ | ⟨x, st, -, hx, rfl⟩
  · exact h.congr hs hp
  · exact h.extend ((h _ w.store_mem_history).apply hx) (.inr rfl)

/-- With any number of keys. -/
theorem keeps (K : Type) [DecidableEq K] :
    Hub.KeepsUpTo (sharedBy K) (fun f => ∀ st ∈ f.history, True) (fun f => ∀ k, (f.worldOf k).Named)
      (fun _ _ => True) fun _ _ _ => True :=
  keepsUpTo_sharedBy (fun hs hp h => h.congr hs hp) (fun _ h he => h.env he)
    fun _ _ h hans => ⟨h.answer hans, trivial⟩

end World.Named
end RedkeyOperator.Kube
