import Mathlib.Tactic.Common
import Lifecycle.Injection.Run

/-!
# What a computation comes to

`Ends E r Q` says of the outcome `r` of a computation that it is a value and a state with `Q`; a
failure owes `E`. With `False` for `E` this is total correctness, with `True` it speaks only of
computations that do not fail. The rules are the same for both.
-/

namespace Lifecycle

def Ends {ε σ α : Type} (E : Prop) (r : EStateM.Result ε σ α) (Q : α → σ → Prop) : Prop :=
  match r with
  | .ok a s => Q a s
  | .error _ _ => E

section Ends

variable {ε σ α : Type} {E : Prop} {r : EStateM.Result ε σ α} {Q R : α → σ → Prop}

@[simp] theorem ends_ok {a : α} {s : σ} : Ends E (.ok a s : EStateM.Result ε σ α) Q ↔ Q a s :=
  Iff.rfl

theorem Ends.mono (h : Ends E r Q) (hqr : ∀ a s, Q a s → R a s) : Ends E r R := by
  cases r with
  | ok a s => exact hqr a s h
  | error e s => exact h

theorem ends_any : Ends True r fun _ _ => True := by
  cases r <;> trivial

theorem Ends.imp {F : Prop} (h : Ends E r Q) (hef : E → F) : Ends F r Q := by
  cases r with
  | ok a s => exact h
  | error e s => exact hef h

theorem Ends.of_eq {a : α} {s : σ} (h : Ends E r Q) (hr : r = .ok a s) : Q a s := by
  subst hr
  exact h

theorem Ends.exists (h : Ends False r Q) : ∃ a s, r = .ok a s ∧ Q a s := by
  cases r with
  | ok a s => exact ⟨a, s, rfl, h⟩
  | error e s => exact h.elim

end Ends

namespace OpM

variable {α β : Type} {E : Prop} {s : OpState}

@[simp] theorem ends_bind {m : OpM α} {f : α → OpM β} {Q : β → OpState → Prop} :
    Ends E ((m >>= f) s) Q ↔ Ends E (m s) fun a s' => Ends E (f a s') Q := by
  have hb : (m >>= f) s = EStateM.bind m f s := rfl
  rw [hb, EStateM.bind]
  cases m s <;> exact Iff.rfl

@[simp] theorem ends_pure {a : α} {Q : α → OpState → Prop} :
    Ends E ((pure a : OpM α) s) Q ↔ Q a s := Iff.rfl

@[simp] theorem ends_get {Q : OpState → OpState → Prop} :
    Ends E ((get : OpM OpState) s) Q ↔ Q s s := Iff.rfl

@[simp] theorem ends_set {s' : OpState} {Q : PUnit → OpState → Prop} :
    Ends E ((set s' : OpM PUnit) s) Q ↔ Q ⟨⟩ s' := Iff.rfl

@[simp] theorem ends_modify {f : OpState → OpState} {Q : PUnit → OpState → Prop} :
    Ends E ((modify f : OpM PUnit) s) Q ↔ Q ⟨⟩ (f s) := Iff.rfl

theorem ends_lift {x : Except Fault α} {Q : α → OpState → Prop} :
    Ends E (OpM.lift x s) Q ↔
      match x with
      | .ok a => Q a s
      | .error _ => E := by
  cases x <;> exact Iff.rfl

end OpM

namespace InjectM

variable {α β : Type} {E : Prop} {c : InjectContext} {st : InjectState} {Q : α → InjectState → Prop}

@[simp] theorem ends_bind {m : InjectM α} {f : α → InjectM β} {Q : β → InjectState → Prop} :
    Ends E ((m >>= f) c st) Q ↔ Ends E (m c st) fun a st' => Ends E (f a c st') Q := by
  have hb : (m >>= f) c st = EStateM.bind (m c) (fun a => f a c) st := rfl
  rw [hb, EStateM.bind]
  cases m c st <;> exact Iff.rfl

@[simp] theorem ends_pure {a : α} : Ends E ((pure a : InjectM α) c st) Q ↔ Q a st := Iff.rfl

@[simp] theorem ends_get {Q : InjectState → InjectState → Prop} :
    Ends E ((get : InjectM InjectState) c st) Q ↔ Q st st := Iff.rfl

@[simp] theorem ends_set {s : InjectState} {Q : PUnit → InjectState → Prop} :
    Ends E ((set s : InjectM PUnit) c st) Q ↔ Q ⟨⟩ s := Iff.rfl

@[simp] theorem ends_read {Q : InjectContext → InjectState → Prop} :
    Ends E ((read : InjectM InjectContext) c st) Q ↔ Q c st := Iff.rfl

theorem ends_ite {p : Prop} [Decidable p] {m n : InjectM α} : Ends E ((if p then m else n) c st) Q ↔
      (p → Ends E (m c st) Q) ∧ (¬ p → Ends E (n c st) Q) := by
  by_cases hp : p <;> simp [hp]

theorem ends_ops {m : OpM α} :
    Ends E (ops m c st) Q ↔ Ends E (m st.ops) fun a o => Q a { st with ops := o } := by
  rw [ops, ends_bind, ends_get, EStateM.run]
  cases m st.ops with
  | ok a o => exact Iff.rfl
  | error e o => exact Iff.rfl

theorem bind_of_eq_ok {m : InjectM α} {f : α → InjectM β} {a : α} {st' : InjectState}
    (h : m c st = .ok a st') : (m >>= f) c st = f a c st' := by
  have hb : (m >>= f) c st = EStateM.bind (m c) (fun a => f a c) st := rfl
  rw [hb, EStateM.bind, h]

theorem lift_of_eq_ok {x : Except Fault α} {a : α} (h : x = .ok a) :
    (liftM x : InjectM α) c st = .ok a st := by
  rw [h]
  rfl

end InjectM

end Lifecycle
