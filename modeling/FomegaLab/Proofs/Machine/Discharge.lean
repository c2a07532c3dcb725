-- Closed values of the machine with environments. In a closed value each closure
-- binds every free name of its body, and so do the closures in its environment,
-- so a closed value discharges to a closed term.
import FomegaLab.Machine.CEK
import FomegaLab.Proofs.Erasure

namespace FomegaLab.CEK

/-- An environment has a value for the name. -/
def Env.Binds (env : Env) (x : Name) : Prop := (env.find? x).isSome

mutual
/-- Every free name in a closure has a value there, and that value is closed too. -/
def Value.Closed : Value → Prop
  | .const _ => True
  | .closure x body env => (∀ y ∈ body.free, y = x ∨ env.Binds y) ∧ env.Closed
  | .suspension body env => (∀ y ∈ body.free, env.Binds y) ∧ env.Closed

def Env.Closed : Env → Prop
  | .empty => True
  | .bind _ value rest => value.Closed ∧ rest.Closed
end

theorem Env.binds_bind {x y : Name} {v : Value} {env : Env} :
    (Env.bind x v env).Binds y ↔ x = y ∨ env.Binds y := by
  unfold Binds
  rw [find?]
  split_ifs with h <;> simp [h]

theorem Env.dischargeAt_eq (env : Env) (x : Name) :
    env.dischargeAt x = (env.find? x).map Value.discharge := by
  match env with
  | .empty => rfl
  | .bind y v rest =>
    rw [dischargeAt, find?, rest.dischargeAt_eq x]
    split_ifs <;> rfl

theorem Env.binds_iff {env : Env} {x : Name} : env.Binds x ↔ env.dischargeAt x ≠ none := by
  rw [dischargeAt_eq, Binds]
  cases env.find? x <;> simp

theorem Env.closed_find {env : Env} {x : Name} {v : Value} (h : env.Closed)
    (hv : env.find? x = some v) : v.Closed := by
  match env with
  | .empty => cases hv
  | .bind y w rest =>
    unfold find? at hv
    split_ifs at hv
    · cases hv
      exact h.1
    · exact closed_find h.2 hv

/-- A new binding is one more name for closing a term. -/
theorem Env.dischargeAt_bind (x : Name) (v : Value) (env : Env) :
    (Env.bind x v env).dischargeAt = UTerm.extend env.dischargeAt x v.discharge := by
  funext y
  rw [dischargeAt, UTerm.extend]

mutual
theorem Value.free_discharge : ∀ {v : Value}, v.Closed → v.discharge.free = []
  | .const _, _ => rfl
  | .closure x body env, h => by
    rw [Value.discharge, UTerm.free, List.filter_eq_nil_iff]
    intro y hy
    obtain ⟨hyf, hyb⟩ := UTerm.mem_free_close (fun _ _ => Env.free_dischargeAt h.2) hy
    rcases hyb with hyb | hyn
    · simpa using hyb
    · rcases h.1 y hyf with hyx | hbinds
      · simp [hyx]
      · exact absurd hyn (Env.binds_iff.mp hbinds)
  | .suspension body env, h => by
    rw [Value.discharge, UTerm.free, List.eq_nil_iff_forall_not_mem]
    intro y hy
    obtain ⟨hyf, hyb⟩ := UTerm.mem_free_close (fun _ _ => Env.free_dischargeAt h.2) hy
    rcases hyb with hyb | hyn
    · cases hyb
    · exact Env.binds_iff.mp (h.1 y hyf) hyn

theorem Env.free_dischargeAt : ∀ {env : Env} {x : Name} {u : UTerm},
    env.Closed → env.dischargeAt x = some u → u.free = []
  | .empty, _, _, _, hu => by cases hu
  | .bind y v rest, x, u, h, hu => by
    unfold Env.dischargeAt at hu
    split_ifs at hu
    · cases hu
      exact Value.free_discharge h.1
    · exact Env.free_dischargeAt h.2 hu
end

/-- Closing a body in an environment and then its own binder is closing the body
in the environment with the new binding. -/
theorem close_bind {env : Env} (h : env.Closed) (x : Name) (v : Value) (body : UTerm) :
    (body.close env.dischargeAt [x]).close (UTerm.single x v.discharge) [] =
      body.close (Env.bind x v env).dischargeAt [] := by
  rw [Env.dischargeAt_bind]
  exact UTerm.close_close_single (fun _ _ => Env.free_dischargeAt h) [] body

end FomegaLab.CEK
